import GroupChat.Library.CInt
import Mathlib.Tactic.Linarith

/-!
# Two places

A quantity in two places of a number system with base `B`: `hi` full units of `B` and
`lo` more, in two variables of a signed type. A program brings `lo` into its range by
two loops, one that borrows while `lo` is negative (`TwoPlaces.borrow`) and one that
carries while it is too large (`TwoPlaces.carry`). Every addition of both is checked.

The loops end whatever the two values are, and what they leave is the floor quotient
and the remainder, the only pair with the same total and `lo` in its range – provided
that the type can hold the quotient (`TwoPlaces.normalize_eq`); nothing in between
needs more.
-/

namespace TwoPlaces

open CInt

variable (w B : ℕ)

/-- The pair in `hi` and `lo`, as one number. -/
def total (hi lo : ℤ) : ℤ := hi * B + lo

/-- `while (lo < 0) { hi--; lo += B; }` -/
def borrow [NeZero B] (hi lo : ℤ) : Option (ℤ × ℤ) :=
  if lo < 0 then
    if Fits w (hi - 1) ∧ Fits w (lo + B) then borrow (hi - 1) (lo + B) else none
  else some (hi, lo)
termination_by (-lo).toNat
decreasing_by
  have := Nat.pos_of_neZero B
  omega

/-- `while (lo >= B) { hi++; lo -= B; }` -/
def carry [NeZero B] (hi lo : ℤ) : Option (ℤ × ℤ) :=
  if (B : ℤ) ≤ lo then
    if Fits w (hi + 1) ∧ Fits w (lo - B) then carry (hi + 1) (lo - B) else none
  else some (hi, lo)
termination_by lo.toNat
decreasing_by
  have := Nat.pos_of_neZero B
  omega

/-- Both loops, one after the other. -/
def normalize [NeZero B] (hi lo : ℤ) : Option (ℤ × ℤ) :=
  (borrow w B hi lo).bind fun p => carry w B p.1 p.2

variable {w B} {hi lo : ℤ}

theorem total_ediv_emod (B : ℕ) (hi lo : ℤ) : total B (hi + lo / B) (lo % B) = total B hi lo := by
  have := Int.mul_ediv_add_emod lo B
  rw [total, total, add_mul]
  linarith

/-- A pair in range is determined by its total. -/
theorem eq_of_total_eq {hi' lo' : ℤ} (h : total B hi lo = total B hi' lo') (hlo : 0 ≤ lo ∧ lo < B)
    (hlo' : 0 ≤ lo' ∧ lo' < B) : hi = hi' ∧ lo = lo' := by
  have hB : (0 : ℤ) < B := hlo.1.trans_lt hlo.2
  have hhi : ∀ {hi lo : ℤ}, 0 ≤ lo ∧ lo < B → total B hi lo / B = hi := by
    intro hi lo hlo
    rw [total, add_comm, Int.add_mul_ediv_right _ _ hB.ne', Int.ediv_eq_zero_of_lt hlo.1 hlo.2,
      zero_add]
  have heq : hi = hi' := by rw [← @hhi hi lo hlo, h, hhi hlo']
  subst heq
  exact ⟨rfl, add_left_cancel h⟩

variable [NeZero B]

theorem borrow_of_nonneg (h : 0 ≤ lo) : borrow w B hi lo = some (hi, lo) := by
  rw [borrow, if_neg (not_lt.mpr h)]

theorem carry_of_lt (h : lo < B) : carry w B hi lo = some (hi, lo) := by
  rw [carry, if_neg (not_le.mpr h)]

/-- **Borrowing** ends with the quotient and the remainder, if the quotient fits. -/
theorem borrow_eq (hB : Fits w B) (hhi : Fits w hi) (hlo : Fits w lo) (hneg : lo < 0) :
    borrow w B hi lo = if Fits w (hi + lo / B) then some (hi + lo / B, lo % B) else none := by
  have hpos : (0 : ℤ) < B := Nat.cast_pos.mpr (Nat.pos_of_neZero B)
  induction hi, lo using borrow.induct w B with
  | case1 hi lo _ hfits ih =>
    have hdiv : (lo + B) / (B : ℤ) = lo / B + 1 := Int.add_ediv_of_dvd_right (dvd_refl _) |>.trans
      (by rw [Int.ediv_self hpos.ne'])
    rw [borrow, if_pos hneg, if_pos hfits]
    rcases lt_or_ge (lo + B) 0 with hneg' | hnonneg
    · rw [ih hfits.1 hfits.2 hneg', hdiv, Int.add_emod_right,
        show hi - 1 + (lo / B + 1) = hi + lo / B by ring]
    · -- the last turn
      have hzero : (lo + B) / (B : ℤ) = 0 := Int.ediv_eq_zero_of_lt hnonneg (by omega)
      have hquot : lo / (B : ℤ) = -1 := by omega
      have hrem : lo % (B : ℤ) = lo + B := by
        rw [← Int.add_emod_right, Int.emod_eq_of_lt hnonneg (by omega)]
      rw [borrow_of_nonneg hnonneg, hquot, hrem, show hi + -1 = hi - 1 by ring, if_pos hfits.1]
  | case2 hi lo _ hfits =>
    -- a turn that overflows is one of those before the quotient
    rw [borrow, if_pos hneg, if_neg hfits, if_neg]
    intro hquot
    refine hfits ⟨hquot.of_between hhi ?_ (by omega), hlo.of_between hB (by omega) (by omega)⟩
    have : lo / (B : ℤ) < 0 := Int.ediv_neg_of_neg_of_pos hneg hpos
    omega
  | case3 hi lo hnonneg => exact absurd hneg hnonneg

/-- **Carrying** ends with the quotient and the remainder, if the quotient fits. -/
theorem carry_eq (hhi : Fits w hi) (hlo : Fits w lo) (hnonneg : 0 ≤ lo) :
    carry w B hi lo = if Fits w (hi + lo / B) then some (hi + lo / B, lo % B) else none := by
  have hpos : (0 : ℤ) < B := Nat.cast_pos.mpr (Nat.pos_of_neZero B)
  induction hi, lo using carry.induct w B with
  | case1 hi lo hle hfits ih =>
    have hdiv : (lo - B) / (B : ℤ) = lo / B - 1 := by
      rw [Int.sub_ediv_of_dvd _ (dvd_refl _), Int.ediv_self hpos.ne']
    rw [carry, if_pos hle, if_pos hfits, ih hfits.1 hfits.2 (by omega), hdiv, Int.sub_emod_right,
      show hi + 1 + (lo / B - 1) = hi + lo / B by ring]
  | case2 hi lo hle hfits =>
    rw [carry, if_pos hle, if_neg hfits, if_neg]
    intro hquot
    have hone : 1 ≤ lo / (B : ℤ) := (Int.le_ediv_iff_mul_le hpos).mpr (by omega)
    have hpow : (0 : ℤ) < 2 ^ (w - 1) := by positivity
    have hlt := hlo.2
    exact hfits ⟨hhi.of_between hquot (by omega) (by omega), by omega, by omega⟩
  | case3 hi lo hlt =>
    have hlt' : lo < B := not_le.mp hlt
    rw [carry_of_lt hlt', Int.ediv_eq_zero_of_lt hnonneg hlt', Int.emod_eq_of_lt hnonneg hlt',
      add_zero, if_pos hhi]

/-- **Both loops** end, with the quotient and the remainder, if the quotient fits. -/
theorem normalize_eq (hB : Fits w B) (hhi : Fits w hi) (hlo : Fits w lo) :
    normalize w B hi lo = if Fits w (hi + lo / B) then some (hi + lo / B, lo % B) else none := by
  have hpos : (0 : ℤ) < B := Nat.cast_pos.mpr (Nat.pos_of_neZero B)
  rcases lt_or_ge lo 0 with hneg | hnonneg
  · rw [normalize, borrow_eq hB hhi hlo hneg]
    split_ifs
    · exact carry_of_lt (Int.emod_lt_of_pos lo hpos)
    · rfl
  · rw [normalize, borrow_of_nonneg hnonneg, Option.bind_some, carry_eq hhi hlo hnonneg]

end TwoPlaces
