import Mathlib.Algebra.BigOperators.Group.Finset.Basic
import Mathlib.Algebra.BigOperators.Group.Finset.Piecewise
import Mathlib.Data.Fintype.Sum
import Mathlib.Tactic.Common

/-!
# Counting threads

The number of threads that are in a given class (`Population.count`; whether a
thread is in it may depend on the thread and on its control state), and what
becomes of it when one thread moves (`Population.count_update`) or several
change at once (`Population.count_le_count`, `Population.count_lt_count`).
-/

namespace Population

variable {ι α : Type*} [Fintype ι]

/-- The number of threads in the class `P`. -/
def count (P : ι → α → Prop) [∀ i x, Decidable (P i x)] (f : ι → α) : ℕ :=
  (Finset.univ.filter fun i => P i (f i)).card

variable {P : ι → α → Prop} [∀ i x, Decidable (P i x)] {f g : ι → α}

theorem count_pos_iff : 0 < count P f ↔ ∃ i, P i (f i) := by
  rw [count, Finset.card_pos]
  exact ⟨fun ⟨i, hi⟩ => ⟨i, (Finset.mem_filter.mp hi).2⟩,
    fun ⟨i, hi⟩ => ⟨i, Finset.mem_filter.mpr ⟨Finset.mem_univ i, hi⟩⟩⟩

theorem count_eq_zero_iff : count P f = 0 ↔ ∀ i, ¬P i (f i) := by
  rw [← not_exists, ← count_pos_iff, Nat.pos_iff_ne_zero, not_not]

/-- **One thread moves**: it leaves the class if it was in it, and enters it if
it now is. -/
theorem count_update [DecidableEq ι] (f : ι → α) (i : ι) (x : α) :
    count P (Function.update f i x) + (if P i (f i) then 1 else 0) =
      count P f + (if P i x then 1 else 0) := by
  have hfun : (fun j => if P j (Function.update f i x j) then 1 else 0) =
      Function.update (fun j => if P j (f j) then 1 else 0) i (if P i x then 1 else 0) := by
    funext j
    rcases eq_or_ne j i with rfl | hne
    · simp
    · simp [Function.update_of_ne hne]
  simp only [count, Finset.card_filter]
  rw [hfun, Finset.sum_update_of_mem (Finset.mem_univ i),
    ← Finset.add_sum_erase Finset.univ (fun j => if P j (f j) then 1 else 0) (Finset.mem_univ i),
    Finset.sdiff_singleton_eq_erase]
  omega

/-- A class that nobody leaves does not shrink. -/
theorem count_le_count (h : ∀ i, P i (f i) → P i (g i)) : count P f ≤ count P g :=
  Finset.card_le_card fun i hi =>
    Finset.mem_filter.mpr ⟨Finset.mem_univ i, h i (Finset.mem_filter.mp hi).2⟩

/-- A class that nobody leaves and somebody enters grows. -/
theorem count_lt_count (h : ∀ i, P i (f i) → P i (g i)) {i : ι} (hi : ¬P i (f i))
    (hi' : P i (g i)) : count P f < count P g := by
  refine Finset.card_lt_card ⟨fun j hj => ?_, fun hsub => ?_⟩
  · exact Finset.mem_filter.mpr ⟨Finset.mem_univ j, h j (Finset.mem_filter.mp hj).2⟩
  · have hmem := hsub (Finset.mem_filter.mpr ⟨Finset.mem_univ i, hi'⟩)
    exact hi (Finset.mem_filter.mp hmem).2

/-- Of a class with at most one possible member, at most one is counted. -/
theorem count_le_one (h : ∀ i j, P i (f i) → P j (f j) → i = j) : count P f ≤ 1 :=
  Finset.card_le_one.mpr fun i hi j hj =>
    h i j (Finset.mem_filter.mp hi).2 (Finset.mem_filter.mp hj).2

omit [Fintype ι] [∀ i x, Decidable (P i x)] in
/-- Who is in a class after one thread has moved was in it before, or is that
thread. -/
theorem exists_of_exists_update [DecidableEq ι] {i : ι} {x : α}
    (h : ∃ j, P j (Function.update f i x j)) : P i x ∨ ∃ j, P j (f j) := by
  obtain ⟨j, hj⟩ := h
  rcases eq_or_ne j i with rfl | hne
  · rw [Function.update_self] at hj
    exact Or.inl hj
  · rw [Function.update_of_ne hne] at hj
    exact Or.inr ⟨j, hj⟩

/-! ### Two kinds of threads -/

variable {κ : Type*} [Fintype κ]

/-- A class of threads of the first kind is counted among these. -/
theorem count_eq_count_inl {Q : ι ⊕ κ → α → Prop} [∀ i x, Decidable (Q i x)] (f : ι ⊕ κ → α)
    (hl : ∀ i x, Q (.inl i) x ↔ P i x) (hr : ∀ k x, ¬Q (.inr k) x) :
    count Q f = count P fun i => f (.inl i) := by
  refine (congrArg Finset.card (Finset.ext fun i => ?_)).trans
    (Finset.card_map Function.Embedding.inl)
  cases i <;> simp [hl, hr]

/-- A class of threads of the second kind is counted among these. -/
theorem count_eq_count_inr {Q : κ ⊕ ι → α → Prop} [∀ i x, Decidable (Q i x)] (f : κ ⊕ ι → α)
    (hr : ∀ i x, Q (.inr i) x ↔ P i x) (hl : ∀ k x, ¬Q (.inl k) x) :
    count Q f = count P fun i => f (.inr i) := by
  refine (congrArg Finset.card (Finset.ext fun i => ?_)).trans
    (Finset.card_map Function.Embedding.inr)
  cases i <;> simp [hl, hr]

end Population
