import CompileCommands.Proofs.Path.Back
import CompileCommands.Proofs.Path.Order
/-!
# Canonical texts

What a canonical path looks like can be said without folding anything:
it is `.`, or names below the root, or ups and then names
(`CanonicalText`). Such texts are those of the places that can be
written (`canonicalText_iff`), so canonical paths are exactly the paths
that normalizing leaves as they are (`canonicalText_iff_normalize`).

Where a path leads is all that counts when another path is seen from it,
so neither the spelling of a directory and a file nor the way in which
they are nested matters (`normalizeIn_nested`).
-/

namespace CompileCommands

variable {p q : Path} {n : String} {s : Place}

namespace Path

/-! ## The form of a text -/

/-- Whether a stretch of text is a name: not empty, neither `.` nor `..`,
and in one piece. -/
structure IsPlain (cs : List Char) : Prop where
  ne_nil : cs ≠ []
  ne_current : cs ≠ ['.']
  ne_parent : cs ≠ ['.', '.']
  slash : '/' ∉ cs

/-- The texts that are in canonical form. -/
inductive CanonicalText : List Char → Prop
  /-- Where one stands. -/
  | here : CanonicalText ['.']
  /-- Names below the root, or the root alone. -/
  | absolute {ns : List (List Char)} :
      (∀ n ∈ ns, IsPlain n) → CanonicalText ('/' :: List.intercalate ['/'] ns)
  /-- Some ups and then some names, but not nothing. -/
  | relative {k : Nat} {ns : List (List Char)} :
      List.replicate k ['.', '.'] ++ ns ≠ [] → (∀ n ∈ ns, IsPlain n) →
      CanonicalText (List.intercalate ['/'] (List.replicate k ['.', '.'] ++ ns))

theorem isPlain_iff : IsPlain n.toList ↔ Component.IsName n := by
  constructor
  · rintro ⟨hnil, hone, htwo, hslash⟩
    exact ⟨by rw [Component.ofPiece?_of_ne hnil hone htwo, String.ofList_toList], hslash⟩
  · intro hn
    have hpiece := hn.1
    refine ⟨hn.ne_nil, fun hone => ?_, fun htwo => ?_, hn.2⟩
    · rw [hone] at hpiece
      cases hpiece
    · rw [htwo] at hpiece
      cases hpiece

theorem forall_isPlain_iff {ns : List String} :
    (∀ n ∈ ns.map String.toList, IsPlain n) ↔ ∀ n ∈ ns, Component.IsName n := by
  simp only [List.forall_mem_map, isPlain_iff]

/-- Stretches of text are the texts of strings. -/
theorem exists_map_toList (ns : List (List Char)) : ∃ ms : List String, ns = ms.map String.toList :=
  ⟨ns.map String.ofList, by simp [Function.comp_def]⟩

end Path

namespace Place

/-- The words of a relative place as text. -/
theorem map_toList_words (k : Nat) (ns : List String) :
    (List.replicate k ".." ++ ns).map String.toList =
      List.replicate k ['.', '.'] ++ ns.map String.toList := by
  rw [List.map_append, List.map_replicate]
  rfl

/-- **The text of a place that can be written** is in canonical form. -/
theorem canonicalText_toPath (hs : s.IsProper) : Path.CanonicalText s.toPath.chars := by
  cases s with
  | absolute ns =>
    rw [chars_toPath_absolute]
    exact .absolute (Path.forall_isPlain_iff.2 hs)
  | relative k ns =>
    by_cases hne : k = 0 ∧ ns = []
    · obtain ⟨rfl, rfl⟩ := hne
      exact .here
    · rw [chars_toPath_relative hne, map_toList_words]
      refine .relative (fun hnil => hne ?_) (Path.forall_isPlain_iff.2 hs)
      obtain ⟨hk, hns⟩ := List.append_eq_nil_iff.1 hnil
      exact ⟨(List.replicate_eq_nil_iff _).1 hk, List.map_eq_nil_iff.1 hns⟩

end Place

namespace Path

/-- **The canonical texts** are those of the places that can be written. -/
theorem canonicalText_iff : CanonicalText p.chars ↔ ∃ s : Place, s.IsProper ∧ p = s.toPath := by
  constructor
  · intro htext
    generalize hcs : p.chars = cs at htext
    cases htext with
    | here => exact ⟨.relative 0 [], fun n hn => absurd hn List.not_mem_nil, chars_inj.1 hcs⟩
    | @absolute ns hns =>
      obtain ⟨ms, rfl⟩ := exists_map_toList ns
      refine ⟨.absolute ms, forall_isPlain_iff.1 hns, chars_inj.1 ?_⟩
      rw [hcs, Place.chars_toPath_absolute]
    | @relative k ns hne hns =>
      obtain ⟨ms, rfl⟩ := exists_map_toList ns
      refine ⟨.relative k ms, forall_isPlain_iff.1 hns, chars_inj.1 ?_⟩
      have hwords : ¬ (k = 0 ∧ ms = []) := by
        rintro ⟨rfl, rfl⟩
        exact hne rfl
      rw [hcs, Place.chars_toPath_relative hwords, Place.map_toList_words]
  · rintro ⟨s, hs, rfl⟩
    exact Place.canonicalText_toPath hs

/-- **A text is in canonical form** exactly if normalizing leaves it as it
is. -/
theorem canonicalText_iff_normalize : CanonicalText p.chars ↔ p.normalize = p := by
  rw [canonicalText_iff]
  constructor
  · rintro ⟨s, hs, rfl⟩
    rw [normalize, Place.place_toPath hs]
  · intro hp
    exact ⟨p.place, Place.isProper_place p, hp.symm⟩

/-- **Normalizing yields canonical forms and keeps them.** It never turns
an absolute path into a relative one or the other way round, what is in
canonical form stays as it is and nothing else does, and canonical forms
of the same components are the same text. -/
theorem normalize_isCanonicalForm :
    (∀ p : Path, CanonicalText p.normalize.chars) ∧
    (∀ p : Path, p.normalize.isAbsolute = p.isAbsolute) ∧
    (∀ p : Path, CanonicalText p.chars ↔ p.normalize = p) ∧
    (∀ p : Path, p.normalize.normalize = p.normalize) ∧
    ∀ p q : Path, p.normalize.same q.normalize = true ↔ p.normalize.text = q.normalize.text := by
  refine ⟨fun p => Place.canonicalText_toPath (Place.isProper_place p), isAbsolute_normalize,
    fun p => canonicalText_iff_normalize, normalize_normalize, fun p q => ⟨fun hsame => ?_,
      fun htext => ?_⟩⟩
  · rw [eq_of_same (normalize_normalize p) (normalize_normalize q) hsame]
  · have hpath : p.normalize = q.normalize := congrArg Path.mk htext
    rw [same_iff, hpath]

/-- A `..` after a name is folded, one at the start of a relative path is
not. -/
example : (⟨"../a//./..///../b/"⟩ : Path).normalize = ⟨"../../b"⟩ := by decide

/-! ## Spelled and nested in another way -/

/-- **The identity of a file** depends on where its directory and the file
itself lead to: not on how they are spelled, nor on whether a path in
between is put behind the directory or before the file. -/
theorem normalizeIn_nested (a b c : Path) :
    normalizeIn a b = normalizeIn a.normalize b.normalize ∧
      normalizeIn (normalizeIn a b) c = normalizeIn a (b.join c) := by
  constructor
  · rw [normalizeIn, normalizeIn, normalize_inj, place_join, place_join, place_normalize,
      place_normalize]
  · refine normalize_inj.2 ?_
    calc ((normalizeIn a b).join c).place
        = (normalizeIn a b).place.walk c.components := place_join_eq_walk _ c
      _ = (a.join b).place.walk c.components := by rw [normalizeIn, place_normalize]
      _ = (a.place.walk b.components).walk c.components := by rw [place_join_eq_walk a b]
      _ = a.place.walk (b.join c).components := (Place.walk_components_join b c a.place).symm
      _ = (a.join (b.join c)).place := (place_join_eq_walk a _).symm

end Path

end CompileCommands
