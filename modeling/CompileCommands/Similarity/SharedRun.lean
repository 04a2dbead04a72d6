/-!
# Shared runs

The length of the longest list that occurs contiguously in two lists.
It is found row by row: the row of an element of the first list holds,
for every position of the second, how long the two lists agree up to
there.

Only the row before is needed to fill the next one, so two rows are
enough, which change places after every element (`longestInRows`).
-/

namespace CompileCommands

namespace SharedRun

variable {α : Type} [DecidableEq α]

/-- The row of `x`. `diagonal` is what the row before holds one position
earlier. -/
def nextRow (x : α) : Nat → List α → List Nat → List Nat
  | diagonal, y :: ys, n :: row =>
    (if x = y then diagonal + 1 else 0) :: nextRow x n ys row
  | _, _, _ => []

/-- The greatest entry of the rows that follow `row`. -/
def longestFrom (ys : List α) : List Nat → List α → Nat
  | _, [] => 0
  | row, x :: xs =>
    let row := nextRow x 0 ys row
    max (row.foldl max 0) (longestFrom ys row xs)

/-- The length of the longest run that both lists have. -/
def longest (xs ys : List α) : Nat := longestFrom ys (ys.map fun _ => 0) xs

/-! ## In two rows -/

/-- Two rows, each with a place in front of the first position, and the
greatest entry so far. -/
structure Rows where
  before : List Nat
  current : List Nat
  greatest : Nat

namespace Rows

def start (ys : List α) : Rows :=
  ⟨List.replicate (ys.length + 1) 0, List.replicate (ys.length + 1) 0, 0⟩

/-- Fills the current row for `x`, from position `j` on. -/
def fill (x : α) : Nat → List α → Rows → Rows
  | _, [], t => t
  | j, y :: ys, t =>
    let entry := if x = y then t.before.getD j 0 + 1 else 0
    fill x (j + 1) ys
      { t with current := t.current.set (j + 1) entry, greatest := max t.greatest entry }

/-- The current row is the row before the next one, and the row before is
the next to be filled, with all that it holds. -/
def swap (t : Rows) : Rows := { t with before := t.current, current := t.before }

/-- The rows after all elements of a list. -/
def run (ys : List α) : List α → Rows → Rows
  | [], t => t
  | x :: xs, t => run ys xs (t.fill x 0 ys).swap

end Rows

/-- The greatest entry that two rows come to hold. -/
def longestInRows (xs ys : List α) : Nat := ((Rows.start ys).run ys xs).greatest

end SharedRun

end CompileCommands
