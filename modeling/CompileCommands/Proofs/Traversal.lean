import Mathlib.Data.List.Forall2
/-!
# Going through a list

A list is gone through element by element, up to the first one that
fails: it succeeds if all elements do (`mapM_eq_ok`), and fails exactly
if some element does (`exists_mapM_eq_error`). Lists that go together
element by element have a counterpart for each.
-/

namespace CompileCommands

variable {ε α β : Type} {f : α → Except ε β} {x : α} {xs : List α} {ys : List β}

theorem mapM_cons_eq_ok : (x :: xs).mapM f = .ok ys ↔
    ∃ b bs, f x = .ok b ∧ xs.mapM f = .ok bs ∧ ys = b :: bs := by
  rw [List.mapM_cons]
  cases f x with
  | error e => simp [bind, Except.bind]
  | ok b => cases xs.mapM f <;> simp [bind, Except.bind, pure, Except.pure, eq_comm]

/-- A list can be gone through if every element can. -/
theorem mapM_eq_ok : xs.mapM f = .ok ys ↔ xs.map f = ys.map .ok := by
  induction xs generalizing ys with
  | nil => cases ys <;> simp [pure, Except.pure]
  | cons x xs ih =>
    rw [mapM_cons_eq_ok]
    constructor
    · rintro ⟨b, bs, hx, hxs, rfl⟩
      rw [List.map_cons, List.map_cons, hx, ih.1 hxs]
    · intro hmap
      cases ys with
      | nil => cases hmap
      | cons b bs =>
        obtain ⟨hx, hxs⟩ := List.cons.inj hmap
        exact ⟨b, bs, hx, ih.2 hxs, rfl⟩

theorem forall₂_of_mapM (hys : xs.mapM f = .ok ys) : xs.Forall₂ (fun x y => f x = .ok y) ys := by
  have hmap : List.Forall₂ (· = ·) (xs.map f) (ys.map .ok) :=
    List.forall₂_eq_eq_eq ▸ mapM_eq_ok.1 hys
  rwa [List.forall₂_map_left_iff, List.forall₂_map_right_iff] at hmap

/-- What stands in the one list has its counterpart in the other. -/
theorem exists_of_mem_left {R : α → β → Prop} (h : xs.Forall₂ R ys) (hx : x ∈ xs) :
    ∃ y ∈ ys, R x y := by
  induction h with
  | nil => exact absurd hx List.not_mem_nil
  | cons hr _ ih =>
    rcases List.mem_cons.1 hx with rfl | hx
    · exact ⟨_, List.mem_cons_self .., hr⟩
    · obtain ⟨y, hy, hxy⟩ := ih hx
      exact ⟨y, List.mem_cons_of_mem _ hy, hxy⟩

theorem exists_of_mem_right {R : α → β → Prop} {y : β} (h : xs.Forall₂ R ys) (hy : y ∈ ys) :
    ∃ x ∈ xs, R x y :=
  exists_of_mem_left h.flip hy

/-- A list cannot be gone through exactly if some element cannot. -/
theorem exists_mapM_eq_error :
    (∃ e, xs.mapM f = .error e) ↔ ∃ x ∈ xs, ∃ e, f x = .error e := by
  induction xs with
  | nil => simp [pure, Except.pure]
  | cons x xs ih =>
    rw [List.exists_mem_cons_iff, ← ih, List.mapM_cons]
    cases f x with
    | error e => simp [bind, Except.bind]
    | ok b => cases xs.mapM f <;> simp [bind, Except.bind, pure, Except.pure]

/-- The error is that of some element. -/
theorem mapM_eq_error {e : ε} (he : xs.mapM f = .error e) :
    ∃ x ∈ xs, f x = .error e := by
  induction xs with
  | nil => cases he
  | cons x xs ih =>
    rw [List.mapM_cons] at he
    cases hx : f x with
    | error e' =>
      rw [hx] at he
      cases he
      exact ⟨x, List.mem_cons_self .., hx⟩
    | ok b =>
      cases hxs : xs.mapM f with
      | error e' =>
        rw [hx, hxs] at he
        cases he
        obtain ⟨y, hy, he⟩ := ih hxs
        exact ⟨y, List.mem_cons_of_mem _ hy, he⟩
      | ok bs =>
        rw [hx, hxs] at he
        cases he

end CompileCommands
