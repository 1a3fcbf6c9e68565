import Mathlib.Data.List.Basic
import Mathlib.Tactic.Common

/-!
# Input in lines of bounded length

A reader that takes symbols from an input until one of them ends the line, until it
has as many as it has room for, or until there are no more. Called over and over it
cuts the input into lines (`BoundedLines.lines`), none of which is empty, and which
are the input when put together again.
-/

namespace BoundedLines

variable {α : Type*} (stop : α → Bool)

/-- One call of the reader: the line it takes, of at most `n` symbols, and what it leaves. -/
def readLine : ℕ → List α → List α × List α
  | 0, input => ([], input)
  | _ + 1, [] => ([], [])
  | n + 1, a :: input =>
    if stop a then ([a], input) else ((a :: (readLine n input).1), (readLine n input).2)

variable {stop} {n : ℕ} {input : List α}

theorem readLine_append (n : ℕ) (input : List α) :
    (readLine stop n input).1 ++ (readLine stop n input).2 = input := by
  induction input generalizing n with
  | nil => cases n <;> rfl
  | cons a input ih =>
    cases n with
    | zero => rfl
    | succ n =>
      unfold readLine
      split_ifs
      · rfl
      · rw [List.cons_append, ih]

theorem length_readLine_le (n : ℕ) (input : List α) : (readLine stop n input).1.length ≤ n := by
  induction input generalizing n with
  | nil => cases n <;> exact Nat.zero_le _
  | cons a input ih =>
    cases n with
    | zero => exact Nat.zero_le _
    | succ n =>
      unfold readLine
      split_ifs
      · exact Nat.succ_le_succ (Nat.zero_le n)
      · exact Nat.succ_le_succ (ih n)

@[simp] theorem readLine_nil : readLine stop n [] = ([], []) := by cases n <;> rfl

/-- With room for a symbol and one to take, the line is not empty. -/
theorem readLine_ne_nil (h : input ≠ []) : (readLine stop (n + 1) input).1 ≠ [] := by
  cases input with
  | nil => exact absurd rfl h
  | cons a input =>
    unfold readLine
    split_ifs <;> exact List.cons_ne_nil _ _

theorem length_readLine_lt (h : input ≠ []) :
    (readLine stop (n + 1) input).2.length < input.length := by
  have hlen := congrArg List.length (@readLine_append _ stop (n + 1) input)
  have hpos := List.length_pos_iff.mpr (@readLine_ne_nil _ stop n _ h)
  rw [List.length_append] at hlen
  omega

variable (stop n) in
/-- The lines of an input, for a reader with room for `n + 1` symbols. -/
def lines (input : List α) : List (List α) :=
  match input with
  | [] => []
  | a :: input =>
    (readLine stop (n + 1) (a :: input)).1 :: lines (readLine stop (n + 1) (a :: input)).2
termination_by input.length
decreasing_by exact length_readLine_lt (List.cons_ne_nil a input)

@[simp] theorem lines_nil : lines stop n ([] : List α) = [] := by rw [lines]

theorem lines_of_ne_nil (h : input ≠ []) :
    lines stop n input =
      (readLine stop (n + 1) input).1 :: lines stop n (readLine stop (n + 1) input).2 := by
  cases input with
  | nil => exact absurd rfl h
  | cons a input => rw [lines]

/-- **Nothing is lost**: the lines put together are the input. -/
theorem flatten_lines (input : List α) : (lines stop n input).flatten = input := by
  induction input using lines.induct stop n with
  | case1 => simp
  | case2 a input ih =>
    rw [lines_of_ne_nil (List.cons_ne_nil a input), List.flatten_cons, ih, readLine_append]

end BoundedLines
