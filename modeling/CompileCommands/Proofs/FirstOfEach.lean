import CompileCommands.Layers.Basic
import Mathlib.Data.List.Nodup
/-!
# The first of each

Passing over what has been seen keeps the earliest element with each key
(`firstOfEach_eq_earliest`): the keys that are kept are new and differ,
and a lookup by key finds the same element as before. A list of paths
that grows at its end grows by what it has not held yet
(`firstOfEach_concat`).
-/

namespace CompileCommands

/-- The elements that no element before them shares the key with, in
order. -/
def earliest {α : Type} (key : α → Path) (xs : List α) : List α :=
  (xs.zipIdx.filter fun e => key e.1 ∉ (xs.take e.2).map key).map Prod.fst

section FirstOfEach

variable {α : Type} {key : α → Path} {seen : List Path} {xs : List α} {k : Path}

theorem firstOfEach_of_mem {x : α} (hx : key x ∈ seen) :
    firstOfEach key seen (x :: xs) = firstOfEach key seen xs := by
  rw [firstOfEach, if_pos hx]

theorem firstOfEach_of_not_mem {x : α} (hx : key x ∉ seen) :
    firstOfEach key seen (x :: xs) = x :: firstOfEach key (key x :: seen) xs := by
  rw [firstOfEach, if_neg hx]

/-- What has been seen stands for the elements before: passing over it
keeps the earliest of what follows them. -/
theorem firstOfEach_eq_filter (before : List α) (hseen : ∀ k, k ∈ seen ↔ k ∈ before.map key) :
    firstOfEach key seen xs = ((xs.zipIdx before.length).filter fun e =>
      key e.1 ∉ ((before ++ xs).take e.2).map key).map Prod.fst := by
  induction xs generalizing seen before with
  | nil => rfl
  | cons x xs ih =>
    -- the element joins those before it
    have hlength : (before ++ [x]).length = before.length + 1 := List.length_append
    have hsplit : (before ++ [x]) ++ xs = before ++ x :: xs := List.append_cons .. |>.symm
    have htake : (before ++ x :: xs).take before.length = before := List.take_left
    rw [List.zipIdx_cons, List.filter_cons]
    simp only [htake, ← hseen]
    by_cases hx : key x ∈ seen
    · have hseen' : ∀ k, k ∈ seen ↔ k ∈ (before ++ [x]).map key := by
        intro k
        rw [List.map_append, List.mem_append, ← hseen, List.map_singleton, List.mem_singleton]
        exact ⟨.inl, fun hk => hk.elim id fun heq => heq ▸ hx⟩
      rw [firstOfEach_of_mem hx, ih _ hseen', hlength, hsplit, if_neg (by simpa using hx)]
    · have hseen' : ∀ k, k ∈ key x :: seen ↔ k ∈ (before ++ [x]).map key := by
        intro k
        rw [List.map_append, List.mem_append, ← hseen, List.map_singleton, List.mem_singleton,
          List.mem_cons, or_comm]
      rw [firstOfEach_of_not_mem hx, ih _ hseen', hlength, hsplit, if_pos (by simpa using hx),
        List.map_cons]

/-- **Passing over what has been seen keeps the earliest** with each
key. -/
theorem firstOfEach_eq_earliest (key : α → Path) (xs : List α) :
    firstOfEach key [] xs = earliest key xs :=
  firstOfEach_eq_filter [] fun _ => Iff.rfl

/-- The keys of what is kept are new and differ. -/
theorem nodup_firstOfEach (key : α → Path) (seen : List Path) (xs : List α) :
    ((firstOfEach key seen xs).map key).Nodup ∧
      ∀ k ∈ (firstOfEach key seen xs).map key, k ∉ seen := by
  induction xs generalizing seen with
  | nil => exact ⟨List.nodup_nil, fun k hk => absurd hk List.not_mem_nil⟩
  | cons x xs ih =>
    by_cases hx : key x ∈ seen
    · rw [firstOfEach_of_mem hx]
      exact ih seen
    · obtain ⟨hnodup, hnew⟩ := ih (key x :: seen)
      rw [firstOfEach_of_not_mem hx, List.map_cons]
      refine ⟨List.nodup_cons.2 ⟨fun hmem => hnew _ hmem (List.mem_cons_self ..), hnodup⟩, ?_⟩
      exact List.forall_mem_cons.2
        ⟨hx, fun k hk hmem => hnew k hk (List.mem_cons_of_mem _ hmem)⟩

/-- The keys of what is kept are the keys without repeats. -/
theorem map_firstOfEach (key : α → Path) (seen : List Path) (xs : List α) :
    (firstOfEach key seen xs).map key = firstOfEach id seen (xs.map key) := by
  induction xs generalizing seen with
  | nil => rfl
  | cons x xs ih =>
    rw [List.map_cons]
    by_cases hx : key x ∈ seen
    · have hx' : id (key x) ∈ seen := hx
      rw [firstOfEach_of_mem hx, firstOfEach_of_mem hx', ih]
    · have hx' : id (key x) ∉ seen := hx
      rw [firstOfEach_of_not_mem hx, firstOfEach_of_not_mem hx', List.map_cons, ih]
      rfl

/-- **The first with a new key is kept.** -/
theorem find?_firstOfEach (hk : k ∉ seen) :
    (firstOfEach key seen xs).find? (fun x => key x == k) = xs.find? fun x => key x == k := by
  induction xs generalizing seen with
  | nil => rfl
  | cons x xs ih =>
    by_cases hx : key x ∈ seen
    · have hne : (key x == k) = false := beq_false_of_ne fun heq => hk (heq ▸ hx)
      rw [firstOfEach_of_mem hx, List.find?_cons, hne, ih hk]
    · rw [firstOfEach_of_not_mem hx, List.find?_cons, List.find?_cons]
      cases heq : key x == k with
      | true => rfl
      | false =>
        refine ih fun hmem => (List.mem_cons.1 hmem).elim (fun hkx => ?_) hk
        exact ne_of_beq_false heq hkx.symm

/-! ## Paths without repeats -/

variable {ps : List Path} {p q : Path}

theorem mem_firstOfEach : p ∈ firstOfEach id seen ps ↔ p ∉ seen ∧ p ∈ ps := by
  induction ps generalizing seen with
  | nil => exact ⟨fun hp => absurd hp List.not_mem_nil, fun hp => hp.2⟩
  | cons q ps ih =>
    by_cases hq : id q ∈ seen
    · rw [firstOfEach_of_mem hq, ih, List.mem_cons]
      refine and_congr_right fun hp => (or_iff_right ?_).symm
      rintro rfl
      exact hp hq
    · rw [firstOfEach_of_not_mem hq, List.mem_cons, ih, List.mem_cons, List.mem_cons, id_eq]
      constructor
      · rintro (rfl | ⟨hp, hmem⟩)
        · exact ⟨hq, .inl rfl⟩
        · exact ⟨fun hseen => hp (.inr hseen), .inr hmem⟩
      · rintro ⟨hp, rfl | hmem⟩
        · exact .inl rfl
        · by_cases hpq : p = q
          · exact .inl hpq
          · exact .inr ⟨fun hseen => hseen.elim hpq hp, hmem⟩

theorem nodup_firstOfEach_id (seen ps : List Path) : (firstOfEach id seen ps).Nodup :=
  List.map_id (firstOfEach id seen ps) ▸ (nodup_firstOfEach id seen ps).1

theorem firstOfEach_append_singleton (seen ps : List Path) (p : Path) :
    firstOfEach id seen (ps ++ [p]) =
      if p ∈ seen ∨ p ∈ ps then firstOfEach id seen ps else firstOfEach id seen ps ++ [p] := by
  induction ps generalizing seen with
  | nil =>
    rw [List.nil_append, firstOfEach]
    simp only [List.not_mem_nil, or_false]
    rfl
  | cons q ps ih =>
    rw [List.cons_append]
    by_cases hq : id q ∈ seen
    · have hiff : p ∈ seen ∨ p ∈ q :: ps ↔ p ∈ seen ∨ p ∈ ps := by
        rw [List.mem_cons]
        exact ⟨fun h => h.elim .inl fun h => h.elim (fun h => .inl (h ▸ hq)) .inr,
          Or.imp_right .inr⟩
      rw [firstOfEach_of_mem hq, firstOfEach_of_mem hq, ih]
      simp only [hiff]
    · have hiff : p ∈ seen ∨ p ∈ q :: ps ↔ p ∈ id q :: seen ∨ p ∈ ps := by
        rw [List.mem_cons, List.mem_cons, id_eq, or_left_comm, or_assoc]
      rw [firstOfEach_of_not_mem hq, firstOfEach_of_not_mem hq, ih]
      simp only [hiff]
      split
      · rfl
      · rw [List.cons_append]

/-- **One more path** stands at the end, unless it has been seen or is kept
already. -/
theorem firstOfEach_concat (seen ps : List Path) (p : Path) :
    firstOfEach id seen (ps ++ [p]) =
      if p ∈ seen ∨ p ∈ firstOfEach id seen ps then firstOfEach id seen ps
      else firstOfEach id seen ps ++ [p] := by
  have hiff : p ∈ seen ∨ p ∈ firstOfEach id seen ps ↔ p ∈ seen ∨ p ∈ ps := by
    rw [mem_firstOfEach]
    by_cases hp : p ∈ seen
    · exact ⟨fun _ => .inl hp, fun _ => .inl hp⟩
    · rw [and_iff_right hp]
  rw [firstOfEach_append_singleton]
  simp only [hiff]

theorem firstOfEach_nil_concat (ps : List Path) (p : Path) :
    firstOfEach id [] (ps ++ [p]) =
      if p ∈ firstOfEach id [] ps then firstOfEach id [] ps else firstOfEach id [] ps ++ [p] := by
  rw [firstOfEach_concat]
  simp only [List.not_mem_nil, false_or]

/-- **What has been seen might as well be left out** beforehand. -/
theorem firstOfEach_filter (seen known ps : List Path) :
    firstOfEach id seen (ps.filter fun p => p ∉ known) = firstOfEach id (seen ++ known) ps := by
  induction ps generalizing seen with
  | nil => rfl
  | cons p ps ih =>
    by_cases hknown : p ∈ known
    · have hseen : id p ∈ seen ++ known := List.mem_append_right _ hknown
      rw [List.filter_cons_of_neg (by simpa using hknown), ih, firstOfEach_of_mem hseen]
    · rw [List.filter_cons_of_pos (by simpa using hknown)]
      by_cases hseen : id p ∈ seen
      · rw [firstOfEach_of_mem hseen, firstOfEach_of_mem (List.mem_append_left _ hseen), ih]
      · have hnew : id p ∉ seen ++ known := fun hp =>
          (List.mem_append.1 hp).elim hseen hknown
        rw [firstOfEach_of_not_mem hseen, firstOfEach_of_not_mem hnew, ih]
        rfl

end FirstOfEach

end CompileCommands
