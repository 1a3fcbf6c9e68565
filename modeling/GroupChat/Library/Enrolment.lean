import Mathlib.Data.List.Basic
import Mathlib.Data.List.Induction
import Mathlib.Data.List.Nodup
import Mathlib.Tactic.Common

/-!
# Enrolment

Entrants arrive one after the other and get two numbers, that of a group and
their rank in it. Nothing is ever taken back: whoever leaves keeps the numbers.

The ranks are right (`Enrolment.Numbered`) if every newcomer gets the number of
members its group has. Then the ranks given out in a group are `0, 1, 2, …`, in
this order (`Enrolment.Numbered.map_rank_filter`).

The groups are right (`Enrolment.Grouped`) if entrants have names, and groups are
numbered in the order in which their names first appear. Then two entrants have the
same group number exactly if they have the same name
(`Enrolment.Grouped.group_eq_iff`).
-/

namespace Enrolment

/-! ### Ranks -/

variable {ι : Type*} (group rank : ι → ℕ)

/-- Every entrant has the number of those of its group that came before. -/
inductive Numbered : List ι → Prop where
  /-- Nobody has arrived. -/
  | nil : Numbered []
  /-- One more arrives. -/
  | concat {xs : List ι} {x : ι} (h : Numbered xs)
    (hrank : rank x = xs.countP fun y => group y = group x) : Numbered (xs ++ [x])

namespace Numbered

variable {group rank} {xs ys : List ι} {x y : ι}

/-- What counts are the numbers. -/
theorem congr (h : Numbered group rank xs)
    (heq : ys.map (fun x => (group x, rank x)) = xs.map fun x => (group x, rank x)) :
    Numbered group rank ys := by
  induction h generalizing ys with
  | nil => exact List.map_eq_nil_iff.mp heq ▸ .nil
  | @concat xs x h hrank ih =>
    obtain ⟨zs, z', rfl, hzs, hz⟩ := List.map_eq_append_iff.mp (heq.trans List.map_append)
    obtain ⟨z, rfl, hkey⟩ := List.map_eq_singleton_iff.mp hz
    obtain ⟨hg, hr⟩ := Prod.mk.inj hkey
    have hcount : (zs.map group).countP (· = group x) = (xs.map group).countP (· = group x) := by
      have hgroups := congrArg (List.map Prod.fst) hzs
      simp only [List.map_map, Function.comp_def] at hgroups
      rw [hgroups]
    rw [List.countP_map, List.countP_map] at hcount
    refine (ih hzs).concat ?_
    rw [hr, hrank, hg]
    exact hcount.symm

/-- **The numbers of a group** are `0, 1, 2, …`, given out in this order. -/
theorem map_rank_filter (h : Numbered group rank xs) (g : ℕ) :
    (xs.filter fun x => group x = g).map rank = List.range (xs.countP fun x => group x = g) := by
  induction h with
  | nil => rfl
  | @concat xs x h hrank ih =>
    rw [List.filter_append, List.map_append, ih, List.countP_append]
    -- the newcomer gets the next number of its own group; the other groups stay as they are
    by_cases hg : group x = g
    · subst hg
      simp [hrank, List.range_succ]
    · simp [hg]

theorem rank_lt (h : Numbered group rank xs) (hx : x ∈ xs) :
    rank x < xs.countP fun y => group y = group x := by
  refine List.mem_range.mp ?_
  rw [← h.map_rank_filter (group x)]
  exact List.mem_map_of_mem (List.mem_filter.mpr ⟨hx, by simp⟩)

/-- Every number below the number of members has been given to somebody. -/
theorem exists_of_lt (h : Numbered group rank xs) {g r : ℕ}
    (hr : r < xs.countP fun x => group x = g) : ∃ x ∈ xs, group x = g ∧ rank x = r := by
  rw [← List.mem_range, ← h.map_rank_filter g] at hr
  obtain ⟨x, hx, rfl⟩ := List.mem_map.mp hr
  obtain ⟨hmem, hg⟩ := List.mem_filter.mp hx
  exact ⟨x, hmem, of_decide_eq_true hg, rfl⟩

/-- Whoever comes later in a group has the higher number. -/
theorem pairwise_rank_lt (h : Numbered group rank xs) :
    xs.Pairwise fun x y => group x = group y → rank x < rank y := by
  induction h with
  | nil => exact List.Pairwise.nil
  | @concat xs x h hrank ih =>
    refine List.pairwise_append.mpr ⟨ih, List.pairwise_singleton _ _, fun y hy z hz hyz => ?_⟩
    obtain rfl := List.mem_singleton.mp hz
    rw [hrank, ← hyz]
    exact h.rank_lt hy

/-- Nobody has both numbers of somebody else. -/
theorem index_eq (h : Numbered group rank xs) {j k : ℕ} (hx : xs[j]? = some x)
    (hy : xs[k]? = some y) (hgroup : group x = group y) (hrank : rank x = rank y) : j = k := by
  have hpair := List.pairwise_iff_getElem.mp h.pairwise_rank_lt
  obtain ⟨hj, rfl⟩ := List.getElem?_eq_some_iff.mp hx
  obtain ⟨hk, rfl⟩ := List.getElem?_eq_some_iff.mp hy
  rcases Nat.lt_trichotomy j k with hlt | heq | hlt
  · have := hpair j k hj hk hlt hgroup
    omega
  · exact heq
  · have := hpair k j hk hj hlt hgroup.symm
    omega

end Numbered

/-! ### Names in the order of their first appearance -/

variable {α : Type*} [BEq α] [LawfulBEq α]

theorem eraseDups_concat (as : List α) (a : α) :
    (as ++ [a]).eraseDups = if a ∈ as then as.eraseDups else as.eraseDups ++ [a] := by
  rw [List.eraseDups_append]
  split_ifs with h <;> simp [List.removeAll, h, List.eraseDups_cons]

theorem nodup_eraseDups (as : List α) : as.eraseDups.Nodup := by
  induction as using List.reverseRecOn with
  | nil => simp
  | append_singleton as a ih =>
    rw [eraseDups_concat]
    split_ifs with h
    · exact ih
    · refine List.nodup_append.mpr ⟨ih, List.nodup_singleton a, fun b hb c hc hbc => h ?_⟩
      exact List.mem_singleton.mp hc ▸ hbc ▸ List.mem_eraseDups.mp hb

theorem length_eraseDups_le_append (as bs : List α) :
    as.eraseDups.length ≤ (as ++ bs).eraseDups.length := by
  rw [List.eraseDups_append, List.length_append]
  omega

/-- A name keeps its number. -/
theorem idxOf_eraseDups_append {as : List α} {a : α} (h : a ∈ as) (bs : List α) :
    (as ++ bs).eraseDups.idxOf a = as.eraseDups.idxOf a := by
  rw [List.eraseDups_append, List.idxOf_append_of_mem (List.mem_eraseDups.mpr h)]

/-- A new name gets the next number. -/
theorem idxOf_eraseDups_concat (as : List α) (a : α) :
    (as ++ [a]).eraseDups.idxOf a = as.eraseDups.idxOf a := by
  by_cases h : a ∈ as
  · exact idxOf_eraseDups_append h [a]
  · have hnot : a ∉ as.eraseDups := fun hmem => h (List.mem_eraseDups.mp hmem)
    rw [eraseDups_concat, if_neg h, List.idxOf_append_of_notMem hnot, List.idxOf_of_notMem hnot]
    simp

/-! ### Groups -/

variable (name : ι → α)

/-- The group of every entrant is the number of its name. -/
inductive Grouped : List ι → Prop where
  /-- Nobody has arrived. -/
  | nil : Grouped []
  /-- One more arrives. -/
  | concat {xs : List ι} {x : ι} (h : Grouped xs)
    (hgroup : group x = (xs.map name).eraseDups.idxOf (name x)) : Grouped (xs ++ [x])

namespace Grouped

variable {group name} {xs ys : List ι} {x y : ι}

omit [LawfulBEq α] in
/-- What counts are the names and the groups. -/
theorem congr (h : Grouped group name xs)
    (heq : ys.map (fun x => (name x, group x)) = xs.map fun x => (name x, group x)) :
    Grouped group name ys := by
  induction h generalizing ys with
  | nil => exact List.map_eq_nil_iff.mp heq ▸ .nil
  | @concat xs x h hgroup ih =>
    obtain ⟨zs, z', rfl, hzs, hz⟩ := List.map_eq_append_iff.mp (heq.trans List.map_append)
    obtain ⟨z, rfl, hkey⟩ := List.map_eq_singleton_iff.mp hz
    obtain ⟨hname, hg⟩ := Prod.mk.inj hkey
    have hnames : zs.map name = xs.map name := by
      simpa only [List.map_map, Function.comp_def] using congrArg (List.map Prod.fst) hzs
    exact (ih hzs).concat (by rw [hg, hname, hnames, hgroup])

/-- The group number is the place of the name. -/
theorem group_eq (h : Grouped group name xs) (hx : x ∈ xs) :
    group x = (xs.map name).eraseDups.idxOf (name x) := by
  induction h with
  | nil => simp at hx
  | @concat xs y h hgroup ih =>
    rw [List.map_append]
    rcases List.mem_append.mp hx with hmem | hmem
    · rw [idxOf_eraseDups_append (List.mem_map_of_mem hmem), ih hmem]
    · obtain rfl := List.mem_singleton.mp hmem
      rw [List.map_singleton, idxOf_eraseDups_concat, hgroup]

theorem group_lt (h : Grouped group name xs) (hx : x ∈ xs) :
    group x < (xs.map name).eraseDups.length := by
  rw [h.group_eq hx]
  exact List.idxOf_lt_length_iff.mpr (List.mem_eraseDups.mpr (List.mem_map_of_mem hx))

theorem getElem?_group (h : Grouped group name xs) (hx : x ∈ xs) :
    (xs.map name).eraseDups[group x]? = some (name x) := by
  rw [h.group_eq hx]
  exact List.getElem?_idxOf (List.mem_eraseDups.mpr (List.mem_map_of_mem hx))

/-- **Same group, same name.** -/
theorem group_eq_iff (h : Grouped group name xs) (hx : x ∈ xs) (hy : y ∈ xs) :
    group x = group y ↔ name x = name y := by
  rw [h.group_eq hx, h.group_eq hy]
  exact List.idxOf_inj (List.mem_eraseDups.mpr (List.mem_map_of_mem hx))

end Grouped

end Enrolment
