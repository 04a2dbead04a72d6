/-!
# Fields

A text cut at its separators. There is always one field more than there
are separators, so an empty text has one empty field, and joining the
fields of a text at a fixed separator gives the text back.
-/

namespace CompileCommands

namespace Text

variable {α : Type}

/-- The stretches of `xs` between the elements that satisfy `sep`. -/
def fields (sep : α → Bool) : List α → List (List α)
  | [] => [[]]
  | x :: xs =>
    if sep x then [] :: fields sep xs
    else
      match fields sep xs with
      | [] => [[x]]
      | f :: fs => (x :: f) :: fs

/-- The two sides of the first element that satisfies `sep`. -/
def cut (sep : α → Bool) : List α → Option (List α × List α)
  | [] => none
  | x :: xs =>
    if sep x then some ([], xs) else (cut sep xs).map fun p => (x :: p.1, p.2)

/-- The two sides of the last element that satisfies `sep`. -/
def cutLast (sep : α → Bool) (xs : List α) : Option (List α × List α) :=
  (cut sep xs.reverse).map fun p => (p.2.reverse, p.1.reverse)

theorem fields_ne_nil (sep : α → Bool) (xs : List α) : fields sep xs ≠ [] := by
  cases xs with
  | nil => simp [fields]
  | cons x xs =>
    simp only [fields]
    split
    · simp
    · split <;> simp

/-- **Nothing is lost.** The fields cut at `s`, joined at `s`, are the
text. -/
theorem intercalate_fields [DecidableEq α] (s : α) (xs : List α) :
    List.intercalate [s] (fields (· == s) xs) = xs := by
  induction xs with
  | nil => rfl
  | cons x xs ih =>
    simp only [fields]
    split
    · rename_i h
      have hx : x = s := by simpa using h
      subst hx
      cases hf : fields (· == x) xs with
      | nil => exact absurd hf (fields_ne_nil _ _)
      | cons f fs => rw [hf] at ih; simp_all [List.intercalate]
    · cases hf : fields (· == s) xs with
      | nil => exact absurd hf (fields_ne_nil _ _)
      | cons f fs =>
        rw [hf] at ih
        cases fs <;> simp_all [List.intercalate]

end Text

end CompileCommands
