import Mathlib.Data.Int.Order.Basic
import Mathlib.Data.List.Forall2
import Mathlib.Tactic.Common
import Mathlib.Tactic.Positivity
import Mathlib.Tactic.Ring

/-!
# Checked C arithmetic and array accesses

A value of a signed C type is an integer, and an operation on it is partial: it
has no meaning when its exact result does not fit the type, when a divisor is
`0`, and when an index falls outside the array. The operations here return
`none` in those cases, so that “nothing overflows” and “every index is inside
its array” are statements about a computation returning `some`.

The width of the type is a parameter: `int` is `CInt.intBits` wide and `long`
is `CInt.longBits` wide.
-/

namespace CInt

/-- The width of `int`. -/
abbrev intBits : ℕ := 32

/-- The width of `long`. -/
abbrev longBits : ℕ := 64

/-! ### Signed arithmetic -/

/-- The integer is a value of the signed type of `w` bits. -/
def Fits (w : ℕ) (x : ℤ) : Prop := -2 ^ (w - 1) ≤ x ∧ x < 2 ^ (w - 1)

instance (w : ℕ) (x : ℤ) : Decidable (Fits w x) :=
  inferInstanceAs (Decidable (_ ∧ _))

/-- The exact result, if the type can hold it. -/
def checked (w : ℕ) (x : ℤ) : Option ℤ := if Fits w x then some x else none

/-- `a + b` in the signed type of `w` bits. -/
def add (w : ℕ) (a b : ℤ) : Option ℤ := checked w (a + b)

/-- `a - b` in the signed type of `w` bits. -/
def sub (w : ℕ) (a b : ℤ) : Option ℤ := checked w (a - b)

/-- `a * b` in the signed type of `w` bits. -/
def mul (w : ℕ) (a b : ℤ) : Option ℤ := checked w (a * b)

/-- `a % b` in the signed type of `w` bits: the remainder has the sign of `a`,
and it is undefined where the quotient is. -/
def rem (w : ℕ) (a b : ℤ) : Option ℤ :=
  if b = 0 ∨ (a = -2 ^ (w - 1) ∧ b = -1) then none else some (a.tmod b)

variable {w : ℕ} {a b x : ℤ}

@[simp] theorem checked_eq_some (h : Fits w x) : checked w x = some x := if_pos h

theorem add_eq_some (h : Fits w (a + b)) : add w a b = some (a + b) := if_pos h

theorem sub_eq_some (h : Fits w (a - b)) : sub w a b = some (a - b) := if_pos h

theorem mul_eq_some (h : Fits w (a * b)) : mul w a b = some (a * b) := if_pos h

/-- A result is exact, and the type can hold it. -/
theorem checked_eq_some_iff {y : ℤ} : checked w x = some y ↔ Fits w x ∧ x = y := by
  unfold checked
  split_ifs with h <;> simp [h]

/-- Between two values of a type there are only values of it. -/
theorem Fits.of_between (ha : Fits w a) (hb : Fits w b) (h : a ≤ x) (h' : x ≤ b) : Fits w x :=
  ⟨ha.1.trans h, h'.trans_lt hb.2⟩

/-- A count fits as long as it is below the limit. -/
theorem fits_natCast {n : ℕ} (h : n < 2 ^ (w - 1)) : Fits w n := by
  have hpow : (0 : ℤ) < 2 ^ (w - 1) := by positivity
  have hlt : (n : ℤ) < ((2 ^ (w - 1) : ℕ) : ℤ) := Int.ofNat_lt.mpr h
  push_cast at hlt
  exact ⟨by omega, hlt⟩

/-- The values that are not negative are those below the limit. -/
theorem fits_natCast_iff {n : ℕ} : Fits w n ↔ n < 2 ^ (w - 1) := by
  constructor
  · intro h
    have hlt : (n : ℤ) < ((2 ^ (w - 1) : ℕ) : ℤ) := by
      push_cast
      exact h.2
    exact Int.ofNat_lt.mp hlt
  · exact fits_natCast

/-- On values that are not negative the remainder is the mathematical one. -/
theorem rem_eq_some (ha : 0 ≤ a) (hb : 0 < b) : rem w a b = some (a % b) := by
  have hcond : ¬(b = 0 ∨ (a = -2 ^ (w - 1) ∧ b = -1)) := by
    rintro (h | ⟨-, h⟩) <;> omega
  rw [rem, if_neg hcond, Int.tmod_eq_emod_of_nonneg ha]

/-- The counting step of an index: add one and wrap at the size. -/
theorem add_one_rem_eq_some {n : ℕ} {i : ℕ} (hi : i < n) (hn : Fits w n) :
    (add w i 1).bind (fun j => rem w j n) = some (((i + 1) % n : ℕ) : ℤ) := by
  have hpow : (0 : ℤ) < 2 ^ (w - 1) := by positivity
  have hfit : Fits w ((i : ℤ) + 1) := ⟨by omega, by have := hn.2; omega⟩
  rw [add_eq_some hfit, Option.bind_some, rem_eq_some (by omega) (by omega)]
  push_cast
  rfl

/-! ### Array accesses -/

variable {α : Type*}

/-- The value of `xs[i]`, for an index that may be any integer. -/
def load (xs : List α) (i : ℤ) : Option α := if 0 ≤ i then xs[i.toNat]? else none

/-- The array after `xs[i] = x`. -/
def store (xs : List α) (i : ℤ) (x : α) : Option (List α) :=
  if 0 ≤ i ∧ i < xs.length then some (xs.set i.toNat x) else none

@[simp] theorem load_natCast (xs : List α) (i : ℕ) : load xs i = xs[i]? := by
  simp [load]

theorem store_natCast {xs : List α} {i : ℕ} (h : i < xs.length) (x : α) :
    store xs i x = some (xs.set i x) := by
  rw [store, if_pos ⟨by omega, by omega⟩, Int.toNat_natCast]

/-! ### Loops -/

variable {β : Type*} {f : α → Option β} {xs : List α} {ys : List β}

/-- A loop goes through if every turn does. -/
theorem mapM_eq_some_iff :
    xs.mapM f = some ys ↔ List.Forall₂ (fun x y => f x = some y) xs ys := by
  induction xs generalizing ys with
  | nil => simp [List.forall₂_nil_left_iff, eq_comm]
  | cons x xs ih =>
    rw [List.mapM_cons, List.forall₂_cons_left_iff, Option.bind_eq_bind, Option.bind_eq_some_iff]
    constructor
    · rintro ⟨y, hy, h⟩
      obtain ⟨ys', hys, heq⟩ := Option.bind_eq_some_iff.mp h
      exact ⟨y, ys', hy, ih.mp hys, (Option.some.inj heq).symm⟩
    · rintro ⟨y, ys', hy, hys, rfl⟩
      exact ⟨y, hy, Option.bind_eq_some_iff.mpr ⟨ys', ih.mpr hys, rfl⟩⟩

/-- Every turn of a loop that goes through does. -/
theorem exists_of_mapM (h : xs.mapM f = some ys) {x : α} (hx : x ∈ xs) :
    ∃ y ∈ ys, f x = some y := by
  have hall := mapM_eq_some_iff.mp h
  induction hall with
  | nil => simp at hx
  | @cons x' y xs ys hxy hrest ih =>
    rcases List.mem_cons.mp hx with rfl | hx
    · exact ⟨y, List.mem_cons_self, hxy⟩
    · obtain ⟨y', hy', hfx⟩ := ih (mapM_eq_some_iff.mpr hrest) hx
      exact ⟨y', List.mem_cons_of_mem _ hy', hfx⟩

/-- Whatever comes out of a loop comes out of one of its turns. -/
theorem of_mem_mapM (h : xs.mapM f = some ys) {y : β} (hy : y ∈ ys) :
    ∃ x ∈ xs, f x = some y := by
  have hall := mapM_eq_some_iff.mp h
  obtain ⟨k, hk, rfl⟩ := List.mem_iff_getElem.mp hy
  have hk' : k < xs.length := hall.length_eq ▸ hk
  exact ⟨xs[k], List.getElem_mem hk', hall.get hk' hk⟩

/-- Results stand where the arguments do. -/
theorem getElem?_of_mapM (h : xs.mapM f = some ys) (i : ℕ) : ys[i]? = xs[i]?.bind f := by
  have hall := mapM_eq_some_iff.mp h
  clear h
  induction hall generalizing i with
  | nil => rfl
  | cons hxy _ ih =>
    cases i with
    | zero => simp [hxy]
    | succ i => simpa using ih i

/-- Some of the turns come to their results. -/
theorem mapM_filter (h : xs.mapM f = some ys) (p : α → Bool) :
    (xs.filter p).mapM f = some (((xs.zip ys).filter fun x => p x.1).map Prod.snd) := by
  have hall := mapM_eq_some_iff.mp h
  clear h
  induction hall with
  | nil => rfl
  | @cons x y xs ys hxy _ ih =>
    by_cases hx : p x
    · simp [hx, hxy, ih]
    · simp [hx, ih]

theorem exists_mapM (xs : List α) (h : ∀ x ∈ xs, ∃ y, f x = some y) :
    ∃ ys, xs.mapM f = some ys := by
  induction xs with
  | nil => exact ⟨[], rfl⟩
  | cons x xs ih =>
    obtain ⟨y, hy⟩ := h x (List.mem_cons_self ..)
    obtain ⟨ys, hys⟩ := ih fun x' hx' => h x' (List.mem_cons_of_mem x hx')
    exact ⟨y :: ys, by simp [hy, hys]⟩

end CInt
