import Mathlib.Data.List.Basic
import Mathlib.Tactic.Common

/-!
# Bounded queues

What a bounded first-in first-out buffer is for, independently of how it is
stored: a list of at most `n` entries, appended at the back as long as there is
room and taken from the front as long as there is something to take. The bound
is a field of the type, so no operation can lose it.
-/

/-- A first-in first-out buffer of capacity `n`. -/
structure BoundedFifo (α : Type*) (n : ℕ) where
  /-- The entries, oldest first. -/
  items : List α
  /-- There are at most `n` of them. -/
  bounded : items.length ≤ n

namespace BoundedFifo

variable {α : Type*} {n : ℕ}

@[ext] theorem ext {p q : BoundedFifo α n} (h : p.items = q.items) : p = q := by
  cases p
  cases q
  congr

/-- The buffer without entries. -/
def empty : BoundedFifo α n := ⟨[], Nat.zero_le n⟩

/-- Append an entry, if there is room. -/
def push? (q : BoundedFifo α n) (x : α) : Option (BoundedFifo α n) :=
  if h : q.items.length < n then some ⟨q.items ++ [x], by simpa using Nat.succ_le_of_lt h⟩ else none

/-- Take the oldest entry, if there is one. -/
def pop? (q : BoundedFifo α n) : Option (α × BoundedFifo α n) :=
  match q with
  | ⟨[], _⟩ => none
  | ⟨x :: xs, h⟩ => some (x, ⟨xs, by rw [List.length_cons] at h; omega⟩)

@[simp] theorem items_empty : (empty : BoundedFifo α n).items = [] := rfl

variable {q q' : BoundedFifo α n} {x : α}

theorem push?_eq_some_iff :
    q.push? x = some q' ↔ q.items.length < n ∧ q'.items = q.items ++ [x] := by
  unfold push?
  split
  · rename_i h
    rw [Option.some.injEq]
    refine ⟨fun heq => ⟨h, heq ▸ rfl⟩, fun heq => BoundedFifo.ext heq.2.symm⟩
  · rename_i h
    simp [h]

theorem push?_eq_none_iff : q.push? x = none ↔ q.items.length = n := by
  unfold push?
  have := q.bounded
  split <;> simp <;> omega

/-- With room, an entry can be appended. -/
theorem exists_push? (h : q.items.length < n) (x : α) :
    ∃ q', q.push? x = some q' ∧ q'.items = q.items ++ [x] :=
  ⟨⟨q.items ++ [x], by simpa using Nat.succ_le_of_lt h⟩, push?_eq_some_iff.mpr ⟨h, rfl⟩, rfl⟩

theorem pop?_eq_some_iff : q.pop? = some (x, q') ↔ q.items = x :: q'.items := by
  obtain ⟨items, h⟩ := q
  cases items with
  | nil => simp [pop?]
  | cons y ys =>
    simp only [pop?, Option.some.injEq, Prod.mk.injEq, List.cons.injEq]
    exact and_congr_right fun _ => ⟨fun heq => heq ▸ rfl, fun heq => BoundedFifo.ext heq⟩

/-- With entries, the oldest can be taken. -/
theorem exists_pop? {xs : List α} (h : q.items = x :: xs) :
    ∃ q', q.pop? = some (x, q') ∧ q'.items = xs := by
  have hle : xs.length ≤ n := by
    have := q.bounded
    rw [h, List.length_cons] at this
    omega
  exact ⟨⟨xs, hle⟩, pop?_eq_some_iff.mpr h, rfl⟩

end BoundedFifo
