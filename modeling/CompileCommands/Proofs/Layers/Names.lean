import CompileCommands.Proofs.Layers.CacheFiles
import CompileCommands.Proofs.Path.Order
import CompileCommands.Proofs.Path.Spelled
/-!
# Names of complementers

A name is read word by word, and what it may look like can be said letter
by letter: which characters it has, that it starts with a letter, and
where its underscores stand (`isComplementerName_iff`). Such a name, with
its ending, is one component of a path, so a cache file lies in the
directory that it is meant for, and in one directory every name has a
cache file of its own.
-/

namespace CompileCommands

/-- What a name of a complementer looks like. -/
structure IsWellFormedName (cs : List Char) : Prop where
  nonempty : cs ≠ []
  characters : ∀ c ∈ cs, ('a' ≤ c ∧ c ≤ 'z') ∨ ('0' ≤ c ∧ c ≤ '9') ∨ c = '_'
  first : ∀ c, cs.head? = some c → 'a' ≤ c ∧ c ≤ 'z'
  single : ¬ ['_', '_'] <:+: cs
  last : cs.getLast? ≠ some '_'

theorem isNameLetter_iff {c : Char} : isNameLetter c = true ↔ 'a' ≤ c ∧ c ≤ 'z' := by
  rw [isNameLetter, Bool.and_eq_true, decide_eq_true_eq, decide_eq_true_eq]

theorem isNameChar_iff {c : Char} :
    isNameChar c = true ↔ ('a' ≤ c ∧ c ≤ 'z') ∨ ('0' ≤ c ∧ c ≤ '9') := by
  rw [isNameChar, Bool.or_eq_true, isNameLetter_iff, Bool.and_eq_true, decide_eq_true_eq,
    decide_eq_true_eq]

/-- The words of a name hold its characters but for the underscores. -/
theorem forall_mem_fields_iff {cs : List Char} :
    (∀ w ∈ Text.fields (· == '_') cs, ∀ c ∈ w, isNameChar c = true) ↔
      ∀ c ∈ cs, isNameChar c = true ∨ c = '_' := by
  constructor
  · intro hwords c hc
    rcases Text.mem_fields_or (· == '_') hc with hsep | ⟨w, hw, hmem⟩
    · exact .inr (eq_of_beq hsep)
    · exact .inl (hwords w hw c hmem)
  · intro hall w hw c hc
    refine (hall c (Text.mem_of_mem_fields hw hc)).resolve_right ?_
    rintro rfl
    exact Text.not_mem_of_mem_fields hw hc

/-- **A name is accepted for what it looks like.** -/
theorem isComplementerName_iff {name : String} :
    isComplementerName name = true ↔ IsWellFormedName name.toList := by
  have hwords : ((Text.fields (· == '_') name.toList).all
        fun w => !w.isEmpty && w.all isNameChar) = true ↔
      [] ∉ Text.fields (· == '_') name.toList ∧
        ∀ c ∈ name.toList, isNameChar c = true ∨ c = '_' := by
    simp only [List.all_eq_true, Bool.and_eq_true, Bool.not_eq_true', List.isEmpty_eq_false_iff]
    rw [← forall_mem_fields_iff]
    constructor
    · exact fun h => ⟨fun hnil => (h [] hnil).1 rfl, fun w hw => (h w hw).2⟩
    · exact fun h w hw => ⟨fun hnil => h.1 (hnil ▸ hw), h.2 w hw⟩
  rw [isComplementerName, Bool.and_eq_true, hwords, Text.nil_mem_fields_iff]
  constructor
  · rintro ⟨hfirst, hfields, hchars⟩
    push Not at hfields
    obtain ⟨hne, -, hlast, hsingle⟩ := hfields
    refine ⟨hne, fun c hc => ?_, fun c hc => ?_, hsingle, hlast⟩
    · rcases hchars c hc with hchar | hunder
      · exact (isNameChar_iff.1 hchar).imp_right .inl
      · exact .inr (.inr hunder)
    · rw [hc, Option.any_some, isNameLetter_iff] at hfirst
      exact hfirst
  · intro h
    obtain ⟨c, cs, hname⟩ := List.exists_cons_of_ne_nil h.nonempty
    have hhead : name.toList.head? = some c := by rw [hname]; rfl
    have hletter := h.first c hhead
    refine ⟨?_, ?_, fun d hd => ?_⟩
    · rw [hhead, Option.any_some, isNameLetter_iff]
      exact hletter
    · -- a letter in front is no underscore
      rintro (hnil | hunder | hlast | hdouble)
      · exact h.nonempty hnil
      · obtain rfl := Option.some.inj (hhead.symm.trans hunder)
        exact absurd hletter (by decide)
      · exact h.last hlast
      · exact h.single hdouble
    · rw [isNameChar_iff, or_assoc]
      exact h.characters d hd

namespace NamedComplementer

variable {name : String} {k : Complementer} {c : NamedComplementer}

theorem of_eq_ok : of name k = .ok c ↔ c.name = name ∧ c.complementer = k := by
  unfold of
  constructor
  · intro hof
    split at hof
    · obtain rfl := Except.ok.inj hof
      exact ⟨rfl, rfl⟩
    · cases hof
  · rintro ⟨rfl, rfl⟩
    rw [dif_pos c.valid]

theorem of_eq_error : of name k = .error (.badName name) ↔ isComplementerName name = false := by
  unfold of
  split
  · rename_i hname
    simp [hname]
  · rename_i hname
    simp [hname]

/-- The directory of a cache file is the directory that it is made for. -/
theorem parent?_cacheFile (c : NamedComplementer) (d : Path) :
    ∃ p, (c.cacheFile d).parent? = some p ∧ p.same d = true := by
  have hcomponents := Path.components_join_name c.isName_cacheName d
  have hparent := Path.map_components_parent? (c.cacheFile d)
  rw [cacheFile, hcomponents, List.getLast?_concat, List.dropLast_concat] at hparent
  obtain ⟨p, hp, hsame⟩ := Option.map_eq_some_iff.1 hparent
  exact ⟨p, hp, Path.same_iff.2 hsame⟩

theorem fileName?_cacheFile (c : NamedComplementer) (d : Path) :
    (c.cacheFile d).fileName? = some (c.name ++ ".json") := by
  rw [cacheFile, Path.fileName?, Path.components_join_name c.isName_cacheName,
    List.getLast?_concat]
  rfl

/-- **A name neither leads out of a directory nor into the cache file of
another.** A text is accepted as a name exactly if it looks like one, a
complementer can be called by it exactly if it is accepted, and its cache
file in any directory lies in that directory, under a file name and a path
that no other name has there. -/
theorem names_contained :
    (∀ name : String, isComplementerName name = true ↔ IsWellFormedName name.toList) ∧
    (∀ (name : String) (k : Complementer),
      ((∃ c, of name k = .ok c ∧ c.name = name ∧ c.complementer = k) ↔
        isComplementerName name = true) ∧
      (of name k = .error (.badName name) ↔ isComplementerName name = false)) ∧
    ∀ (c c' : NamedComplementer) (d : Path),
      (∃ p, (c.cacheFile d).parent? = some p ∧ p.same d = true) ∧
      (c.cacheFile d).fileName? = some (c.name ++ ".json") ∧
      ((c.cacheFile d).same (c'.cacheFile d) = true ↔ c.name = c'.name) := by
  refine ⟨fun _ => isComplementerName_iff, fun name k => ⟨⟨?_, fun hname => ?_⟩, of_eq_error⟩,
    fun c c' d => ⟨parent?_cacheFile c d, fileName?_cacheFile c d, ?_⟩⟩
  · rintro ⟨c, -, rfl, -⟩
    exact c.valid
  · exact ⟨⟨name, k, hname⟩, of_eq_ok.2 ⟨rfl, rfl⟩, rfl, rfl⟩
  · rw [cacheFile, cacheFile, Path.same_join_name c.isName_cacheName c'.isName_cacheName,
      cacheName_inj, and_iff_left (Path.same_iff.2 rfl)]

end NamedComplementer

end CompileCommands
