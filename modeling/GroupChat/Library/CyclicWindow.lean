import Mathlib.Data.List.Basic
import Mathlib.Tactic.Common

/-!
# The window of a cyclic buffer

A cyclic buffer is a row of `N` cells with two positions: the live entries lie
from `l` up to but excluding `r`, wrapping at the end of the row
(`CyclicWindow.window`). One cell always stays unused, so that `l = r` can only
mean “empty” and “`r` is one step before `l`” can only mean “full”. This file
shows what the three moves of such a buffer do to its window, at every wrap
position: writing the cell at `r` and stepping `r` appends an entry
(`CyclicWindow.window_push`), stepping `l` removes the first one
(`CyclicWindow.window_pop`), and the two positions determine how many entries
there are (`CyclicWindow.length_window`).
-/

namespace CyclicWindow

variable {α : Type*}

/-- The entries of the row from `l` up to but excluding `r`, wrapping at the
end of the row. -/
def window (cells : List α) (l r : ℕ) : List α :=
  if l ≤ r then (cells.drop l).take (r - l) else cells.drop l ++ cells.take r

variable {cells : List α} {l r : ℕ}

theorem window_of_le (h : l ≤ r) : window cells l r = (cells.drop l).take (r - l) := if_pos h

theorem window_of_lt (h : r < l) : window cells l r = cells.drop l ++ cells.take r :=
  if_neg (by omega)

/-- The step of a position, wrapping at the end of the row. -/
theorem step_eq {N i : ℕ} (hi : i < N) : (i + 1) % N = if i + 1 < N then i + 1 else 0 := by
  split
  · exact Nat.mod_eq_of_lt ‹_›
  · rw [show i + 1 = N by omega, Nat.mod_self]

/-! ### The size of a window -/

theorem length_window_cases (hl : l < cells.length) (hr : r < cells.length) :
    (window cells l r).length = if l ≤ r then r - l else cells.length - l + r := by
  by_cases h : l ≤ r
  · rw [window_of_le h, if_pos h, List.length_take, List.length_drop]
    omega
  · rw [window_of_lt (by omega), if_neg h, List.length_append, List.length_drop,
      List.length_take]
    omega

/-- **The number of entries**, from the two positions alone. -/
theorem length_window (hl : l < cells.length) (hr : r < cells.length) :
    (window cells l r).length = (r + cells.length - l) % cells.length := by
  rw [length_window_cases hl hr]
  by_cases h : l ≤ r
  · rw [if_pos h, show r + cells.length - l = (r - l) + cells.length by omega,
      Nat.add_mod_right, Nat.mod_eq_of_lt (by omega)]
  · rw [if_neg h, Nat.mod_eq_of_lt (by omega)]
    omega

/-- A window never takes up the whole row. -/
theorem length_window_lt (hl : l < cells.length) (hr : r < cells.length) :
    (window cells l r).length < cells.length := by
  rw [length_window hl hr]
  exact Nat.mod_lt _ (by omega)

/-- **Empty is `l = r`.** -/
theorem length_window_eq_zero_iff (hl : l < cells.length) (hr : r < cells.length) :
    (window cells l r).length = 0 ↔ l = r := by
  rw [length_window_cases hl hr]
  split <;> omega

/-- **Full is `r` one step before `l`**: all cells but one are taken. -/
theorem length_window_add_one_iff (hl : l < cells.length) (hr : r < cells.length) :
    (window cells l r).length + 1 = cells.length ↔ (r + 1) % cells.length = l := by
  rw [length_window_cases hl hr, step_eq hr]
  split <;> split <;> omega

/-! ### The moves -/

/-- Writing the first cell behind a stretch and taking it along. -/
theorem take_succ_set {k : ℕ} (hk : k < cells.length) (x : α) :
    (cells.set k x).take (k + 1) = cells.take k ++ [x] := by
  rw [List.take_succ_eq_append_getElem (by simpa using hk), List.getElem_set_self,
    List.take_set_of_le (Nat.le_refl k)]

theorem drop_set {k : ℕ} (h : l ≤ k) (x : α) :
    (cells.set k x).drop l = (cells.drop l).set (k - l) x := by
  rw [List.drop_set, if_neg (by omega)]

/-- **Insertion**: as long as `r` is not one step before `l`, writing the cell
at `r` and stepping `r` appends the entry, and no live cell is written. -/
theorem window_push (hl : l < cells.length) (hr : r < cells.length)
    (hfull : (r + 1) % cells.length ≠ l) (x : α) :
    window (cells.set r x) l ((r + 1) % cells.length) = window cells l r ++ [x] := by
  rw [step_eq hr] at hfull ⊢
  rcases Nat.lt_or_ge r l with hlt | hle
  · -- the window wraps, and `r` stays behind `l`
    rw [if_pos (by omega)] at hfull ⊢
    rw [window_of_lt hlt, window_of_lt (by omega), take_succ_set hr,
      List.drop_set_of_lt hlt, List.append_assoc]
  · have hk : r - l < (cells.drop l).length := by rw [List.length_drop]; omega
    split_ifs with hwrap
    · rw [window_of_le hle, window_of_le (by omega), drop_set hle,
        show r + 1 - l = (r - l) + 1 by omega, take_succ_set hk]
    · -- `r` was the last cell and wraps to the front
      rw [if_neg hwrap] at hfull
      have hlen : (r - l) + 1 = ((cells.drop l).set (r - l) x).length := by
        rw [List.length_set, List.length_drop]
        omega
      rw [window_of_le hle, window_of_lt (by omega), drop_set hle, List.take_zero,
        List.append_nil, ← take_succ_set hk, hlen, List.take_length]

/-- **Removal**: from a window that is not empty, stepping `l` takes away the
entry in the cell at `l`. -/
theorem window_pop (hl : l < cells.length) (hr : r < cells.length) (hne : l ≠ r) :
    window cells l r = cells[l] :: window cells ((l + 1) % cells.length) r := by
  have hdrop : cells.drop l = cells[l] :: cells.drop (l + 1) := List.drop_eq_getElem_cons hl
  rw [step_eq hl]
  rcases Nat.lt_or_ge r l with hlt | hle
  · split_ifs with hwrap
    · rw [window_of_lt hlt, window_of_lt (by omega), hdrop, List.cons_append]
    · rw [window_of_lt hlt, window_of_le (Nat.zero_le r), hdrop,
        List.drop_eq_nil_of_le (by omega), List.drop_zero, Nat.sub_zero]
      rfl
  · rw [if_pos (by omega), window_of_le hle, window_of_le (by omega), hdrop,
      show r - l = (r - (l + 1)) + 1 by omega, List.take_succ_cons]

end CyclicWindow
