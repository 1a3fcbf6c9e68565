import Mathlib.Data.String.Basic
import Mathlib.Tactic.Common

/-!
# Numbers in C formats

What `sprintf` writes for a number that is not negative: its decimal digits for `%d`
(`CFormat.decimal`), and for `%03d` zeros before them up to a width of three
(`CFormat.padded`). The number can be read back from either (`CFormat.value`), the digits
are told from what comes behind them, and the number of digits is the number of bytes.
-/

namespace CFormat

open String

/-- `%d`. -/
def decimal (n : ℕ) : String := toString n

/-- `%0wd`, with a width `w`. -/
def padded (w n : ℕ) : String :=
  ofList (List.replicate (w - (decimal n).length) '0') ++ decimal n

/-- The number a string of digits stands for. -/
def value (s : String) : ℕ := Nat.ofDigitChars 10 s.toList 0

variable {w n m k : ℕ}

@[simp] theorem toList_decimal (n : ℕ) : (decimal n).toList = Nat.toDigits 10 n :=
  Nat.toList_repr

theorem toList_padded (w n : ℕ) :
    (padded w n).toList = List.replicate (w - (decimal n).length) '0' ++ Nat.toDigits 10 n := by
  rw [padded, toList_append, toList_ofList, toList_decimal]

theorem isDigit_of_mem_decimal {c : Char} (hc : c ∈ (decimal n).toList) : c.isDigit := by
  rw [toList_decimal] at hc
  exact Nat.isDigit_of_mem_toDigits (by omega) le_rfl hc

/-! ### Reading back -/

@[simp] theorem value_decimal (n : ℕ) : value (decimal n) = n := by
  rw [value, toList_decimal]
  exact Nat.ofDigitChars_ten_toDigits

/-- Zeros before a number do not count. -/
@[simp] theorem value_padded (w n : ℕ) : value (padded w n) = n := by
  rw [value, toList_padded, Nat.ofDigitChars_append, Nat.ofDigitChars_replicate_zero, Nat.mul_zero]
  exact Nat.ofDigitChars_ten_toDigits

theorem decimal_injective : Function.Injective decimal :=
  Function.LeftInverse.injective value_decimal

theorem padded_injective (w : ℕ) : Function.Injective (padded w) :=
  Function.LeftInverse.injective (value_padded w)

/-- A number ends where something comes that is no digit. -/
theorem decimal_append_inj {c : Char} (hc : ¬c.isDigit) {xs ys : List Char}
    (h : (decimal n).toList ++ c :: xs = (decimal m).toList ++ c :: ys) : n = m ∧ xs = ys := by
  have hdigit : ∀ n, c ∉ (decimal n).toList := fun n hmem => hc (isDigit_of_mem_decimal hmem)
  -- the digits reach as far as the first `c`
  have hidx : ∀ n zs, ((decimal n).toList ++ c :: zs).idxOf c = (decimal n).toList.length := by
    intro n zs
    rw [List.idxOf_append_of_notMem (hdigit n), List.idxOf_cons_self, Nat.add_zero]
  have hlen : (decimal n).toList.length = (decimal m).toList.length := by
    rw [← hidx n xs, h, hidx m ys]
  obtain ⟨hnum, hrest⟩ := List.append_inj h hlen
  exact ⟨decimal_injective (toList_injective hnum), (List.cons.inj hrest).2⟩

/-! ### Sizes -/

theorem utf8Len_eq_length {cs : List Char} (h : ∀ c ∈ cs, c.isDigit) : utf8Len cs = cs.length := by
  induction cs with
  | nil => rfl
  | cons c cs ih =>
    have hc : c.utf8Size = 1 := by
      have hdigit := Char.isDigit_iff_toNat.mp (h c List.mem_cons_self)
      exact Char.utf8Size_eq_one_iff.mpr (UInt32.le_iff_toNat_le.mpr (hdigit.2.trans (by decide)))
    rw [utf8Len_cons, ih fun d hd => h d (List.mem_cons_of_mem c hd), hc, List.length_cons]

/-- A number below `10 ^ k` has at most `k` digits. -/
theorem length_decimal_le (hk : 0 < k) (hn : n < 10 ^ k) : (decimal n).length ≤ k := by
  rw [← length_toList, toList_decimal]
  exact (Nat.length_toDigits_le_iff (by omega) hk).mpr hn

/-- **The bytes of a number** are its digits. -/
theorem utf8ByteSize_decimal_le (hk : 0 < k) (hn : n < 10 ^ k) : (decimal n).utf8ByteSize ≤ k := by
  rw [← ofList_toList (s := decimal n), utf8ByteSize_ofList,
    utf8Len_eq_length fun c hc => isDigit_of_mem_decimal hc, length_toList]
  exact length_decimal_le hk hn

theorem utf8ByteSize_padded_le (hk : 0 < k) (hn : n < 10 ^ k) :
    (padded w n).utf8ByteSize ≤ w + k := by
  have hzeros : (ofList (List.replicate (w - (decimal n).length) '0')).utf8ByteSize ≤ w := by
    rw [utf8ByteSize_ofList, utf8Len_eq_length, List.length_replicate]
    · exact Nat.sub_le _ _
    · intro c hc
      rw [List.eq_of_mem_replicate hc]
      decide
  rw [padded, utf8ByteSize_append]
  exact Nat.add_le_add hzeros (utf8ByteSize_decimal_le hk hn)

end CFormat
