import Mathlib.Data.List.Induction
import Mathlib.Order.Basic
/-!
# The first of the greatest

Of the elements of a list that a measure makes greatest, the first: as
what a single pass keeps (`firstGreatest?`) and as a place in the list
(`IsFirstGreatest`), which are the same (`isFirstGreatest_iff`). Repeating
an element where it stands does not change which one it is
(`firstGreatest?_flatMap_replicate`).
-/

namespace CompileCommands

variable {α : Type} {f : α → Int} {xs : List α} {x y : α}

/-- The first of the elements that `f` makes greatest: what a pass over
the list keeps that only takes a greater one for it. -/
def firstGreatest? (f : α → Int) : List α → Option α
  | [] => none
  | x :: xs => some (xs.foldl (fun best y => if f best < f y then y else best) x)

/-- Whether `x` stands first among the elements of `xs` that `f` makes
greatest. -/
def IsFirstGreatest (f : α → Int) (xs : List α) (x : α) : Prop :=
  ∃ before after, xs = before ++ x :: after ∧ (∀ y ∈ before, f y < f x) ∧ ∀ y ∈ after, f y ≤ f x

theorem IsFirstGreatest.mem (hx : IsFirstGreatest f xs x) : x ∈ xs := by
  obtain ⟨before, after, rfl, -, -⟩ := hx
  exact List.mem_append_right _ (List.mem_cons_self ..)

theorem IsFirstGreatest.le (hx : IsFirstGreatest f xs x) (hy : y ∈ xs) : f y ≤ f x := by
  obtain ⟨before, after, rfl, hbefore, hafter⟩ := hx
  rcases List.mem_append.1 hy with hy | hy
  · have hlt := hbefore y hy
    omega
  · rcases List.mem_cons.1 hy with rfl | hy
    · exact Int.le_refl _
    · exact hafter y hy

/-! ## One more element -/

/-- A greater element takes the place of what was kept, and no other
does. -/
theorem firstGreatest?_concat (f : α → Int) (xs : List α) (x : α) :
    firstGreatest? f (xs ++ [x]) =
      match firstGreatest? f xs with
      | none => some x
      | some m => if f m < f x then some x else some m := by
  cases xs with
  | nil => rfl
  | cons y xs =>
    rw [List.cons_append, firstGreatest?, firstGreatest?, List.foldl_append]
    exact apply_ite some ..

/-- What is measured of images is measured of the elements. -/
theorem firstGreatest?_map {β : Type} (f : β → Int) (g : α → β) (xs : List α) :
    firstGreatest? f (xs.map g) = (firstGreatest? (fun x => f (g x)) xs).map g := by
  induction xs using List.reverseRecOn with
  | nil => rfl
  | append_singleton xs x ih =>
    rw [List.map_append, List.map_singleton, firstGreatest?_concat, firstGreatest?_concat, ih]
    cases firstGreatest? (fun x => f (g x)) xs with
    | none => rfl
    | some m => exact (apply_ite (Option.map g) (f (g m) < f (g x)) (some x) (some m)).symm

theorem firstGreatest?_eq_none : firstGreatest? f xs = none ↔ xs = [] := by
  cases xs with
  | nil => exact ⟨fun _ => rfl, fun _ => rfl⟩
  | cons x xs => exact ⟨fun hnone => (by cases hnone), fun hnil => (by cases hnil)⟩

/-- What a pass keeps stands first among the greatest. -/
theorem isFirstGreatest_of_eq_some (hx : firstGreatest? f xs = some x) :
    IsFirstGreatest f xs x := by
  induction xs using List.reverseRecOn generalizing x with
  | nil => cases hx
  | append_singleton xs y ih =>
    rw [firstGreatest?_concat] at hx
    cases hm : firstGreatest? f xs with
    | none =>
      rw [hm] at hx
      obtain rfl := Option.some.inj hx
      rw [firstGreatest?_eq_none.1 hm]
      exact ⟨[], [], rfl, fun z hz => absurd hz List.not_mem_nil,
        fun z hz => absurd hz List.not_mem_nil⟩
    | some m =>
      have hgreatest := ih hm
      rw [hm] at hx
      dsimp only at hx
      split at hx
      · -- the new element is greater than all before it
        rename_i hlt
        obtain rfl := Option.some.inj hx
        refine ⟨xs, [], rfl, fun z hz => ?_, fun z hz => absurd hz List.not_mem_nil⟩
        have hle := hgreatest.le hz
        omega
      · rename_i hle
        obtain rfl := Option.some.inj hx
        obtain ⟨before, after, rfl, hbefore, hafter⟩ := hgreatest
        refine ⟨before, after ++ [y], by simp, hbefore, ?_⟩
        exact List.forall_mem_append.2 ⟨hafter, List.forall_mem_singleton.2 (by omega)⟩

theorem firstGreatest?_concat_of_lt (hxs : ∀ y ∈ xs, f y < f x) :
    firstGreatest? f (xs ++ [x]) = some x := by
  rw [firstGreatest?_concat]
  cases hm : firstGreatest? f xs with
  | none => rfl
  | some m => exact if_pos (hxs m (isFirstGreatest_of_eq_some hm).mem)

theorem firstGreatest?_concat_of_le (hx : firstGreatest? f xs = some x) (hy : f y ≤ f x) :
    firstGreatest? f (xs ++ [y]) = some x := by
  rw [firstGreatest?_concat, hx]
  exact if_neg (by omega)

/-- **What stands first among the greatest** is what a pass keeps. -/
theorem isFirstGreatest_iff : IsFirstGreatest f xs x ↔ firstGreatest? f xs = some x := by
  refine ⟨?_, isFirstGreatest_of_eq_some⟩
  rintro ⟨before, after, rfl, hbefore, hafter⟩
  induction after using List.reverseRecOn with
  | nil => exact firstGreatest?_concat_of_lt hbefore
  | append_singleton after y ih =>
    obtain ⟨hafter, hy⟩ := List.forall_mem_append.1 hafter
    have hsplit : before ++ x :: (after ++ [y]) = (before ++ x :: after) ++ [y] := by simp
    rw [hsplit]
    exact firstGreatest?_concat_of_le (ih hafter) (hy y (List.mem_singleton_self y))

/-! ## Repeated elements -/

/-- An element that is repeated counts once. -/
theorem firstGreatest?_append_replicate (f : α → Int) (xs : List α) (x : α) (n : Nat) :
    firstGreatest? f (xs ++ List.replicate (n + 1) x) = firstGreatest? f (xs ++ [x]) := by
  induction n with
  | zero => rfl
  | succ n ih =>
    obtain ⟨m, hm⟩ : ∃ m, firstGreatest? f (xs ++ [x]) = some m :=
      Option.ne_none_iff_exists'.1 fun hnone =>
        List.concat_ne_nil x xs (firstGreatest?_eq_none.1 hnone)
    have hmem : x ∈ xs ++ [x] := List.mem_append_right _ (List.mem_singleton_self x)
    have hle : f x ≤ f m := (isFirstGreatest_of_eq_some hm).le hmem
    rw [List.replicate_succ', ← List.append_assoc, hm]
    exact firstGreatest?_concat_of_le (ih.trans hm) hle

/-- **Repeating elements where they stand** keeps the first of the
greatest. -/
theorem firstGreatest?_flatMap_replicate (f : α → Int) (n : α → Nat) (xs : List α) :
    firstGreatest? f (xs.flatMap fun x => List.replicate (n x) x) =
      firstGreatest? f (xs.filter fun x => 0 < n x) := by
  induction xs using List.reverseRecOn with
  | nil => rfl
  | append_singleton xs x ih =>
    rw [List.flatMap_append, List.flatMap_singleton, List.filter_append]
    cases hn : n x with
    | zero => simp [hn, ih]
    | succ k =>
      have hkeep : [x].filter (fun x => decide (0 < n x)) = [x] := by simp [hn]
      rw [firstGreatest?_append_replicate, hkeep, firstGreatest?_concat, ih,
        ← firstGreatest?_concat]

end CompileCommands
