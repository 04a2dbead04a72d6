import CompileCommands.Path.Place
import CompileCommands.Proofs.Text.Fields
/-!
# Canonical paths

What a path leads to depends on its steps alone (`walk_components`): the
text between separators, less what carries no meaning. Joining two paths
puts their steps one after the other, so following a joined path is
following the one and then the other (`walk_components_join`), and a
canonical path leads to the place that it was made of
(`place_toPath`).
-/

namespace CompileCommands

variable {p q : Path} {n : String} {piece : List Char} {c : Component} {s : Place}

/-! ## Components that can be written -/

namespace Component

/-- A name that can stand between separators. -/
def IsName (n : String) : Prop := ofPiece? n.toList = some (name n) ∧ '/' ∉ n.toList

/-- A component that is read as it is written. -/
def IsProper : Component → Prop
  | name n => IsName n
  | _ => True

theorem ofPiece?_of_ne (hnil : piece ≠ []) (hone : piece ≠ ['.']) (htwo : piece ≠ ['.', '.']) :
    ofPiece? piece = some (name (String.ofList piece)) := by
  unfold ofPiece?
  split
  · exact absurd rfl hnil
  · exact absurd rfl hone
  · exact absurd rfl htwo
  · rfl

/-- Whatever stands between separators is read as it would be written. -/
theorem isProper_of_ofPiece? (hslash : '/' ∉ piece) (h : ofPiece? piece = some c) :
    c.IsProper := by
  by_cases hnil : piece = []
  · subst hnil; cases h
  by_cases hone : piece = ['.']
  · subst hone; cases h
  by_cases htwo : piece = ['.', '.']
  · subst htwo; cases h; trivial
  have hname := ofPiece?_of_ne hnil hone htwo
  obtain rfl := Option.some.inj (h.symm.trans hname)
  exact ⟨by rw [String.toList_ofList, hname], by rwa [String.toList_ofList]⟩

/-- A name is what stands between the separators. -/
theorem toList_of_ofPiece? (h : ofPiece? piece = some (name n)) : n.toList = piece := by
  unfold ofPiece? at h
  split at h
  · cases h
  · cases h
  · cases h
  · obtain rfl := name.inj (Option.some.inj h)
    exact String.toList_ofList

theorem IsName.ne_nil (h : IsName n) : n.toList ≠ [] := by
  intro hnil
  have hpiece := h.1
  rw [hnil] at hpiece
  cases hpiece

end Component

namespace Path

theorem chars_inj : p.chars = q.chars ↔ p = q :=
  ⟨fun h => congrArg Path.mk (String.toList_inj.1 h), fun h => by rw [h]⟩

/-! ## The steps of a path -/

/-- What stands between the separators of a path, in order. -/
def steps (p : Path) : List Component :=
  (Text.fields (· == '/') p.chars).filterMap Component.ofPiece?

theorem isProper_of_mem_steps (h : c ∈ p.steps) : c.IsProper := by
  obtain ⟨piece, hpiece, hc⟩ := List.mem_filterMap.1 h
  exact Component.isProper_of_ofPiece? (Text.not_mem_of_mem_fields hpiece) hc

/-- The names of a path can be written. -/
theorem isName_of_steps {ns : List String} (hsteps : p.steps = ns.map .name) :
    ∀ n ∈ ns, Component.IsName n := by
  intro n hn
  have hstep : .name n ∈ p.steps := by
    rw [hsteps]
    exact List.mem_map_of_mem hn
  exact isProper_of_mem_steps hstep

theorem mem_chars_of_mem_steps {x : Char} (hn : .name n ∈ p.steps) (hx : x ∈ n.toList) :
    x ∈ p.chars := by
  obtain ⟨piece, hpiece, hname⟩ := List.mem_filterMap.1 hn
  rw [Component.toList_of_ofPiece? hname] at hx
  exact Text.mem_of_mem_fields hpiece hx

/-- **The text of a path** is that of its names, apart from separators and
dots. -/
theorem mem_chars_iff {x : Char} (hslash : x ≠ '/') (hdot : x ≠ '.') :
    x ∈ p.chars ↔ ∃ n, .name n ∈ p.steps ∧ x ∈ n.toList := by
  constructor
  · intro hmem
    rcases Text.mem_fields_or (· == '/') hmem with hsep | ⟨piece, hpiece, hx⟩
    · exact absurd (eq_of_beq hsep) hslash
    · have hname : Component.ofPiece? piece = some (.name (String.ofList piece)) := by
        refine Component.ofPiece?_of_ne ?_ ?_ ?_
        · rintro rfl
          exact List.not_mem_nil hx
        · rintro rfl
          exact hdot (List.mem_singleton.1 hx)
        · rintro rfl
          exact hdot (List.eq_of_mem_replicate (n := 2) hx)
      exact ⟨_, List.mem_filterMap.2 ⟨piece, hpiece, hname⟩, by rwa [String.toList_ofList]⟩
  · rintro ⟨n, hn, hx⟩
    exact mem_chars_of_mem_steps hn hx

theorem isAbsolute_iff : p.isAbsolute = true ↔ ∃ cs, p.chars = '/' :: cs := by
  unfold isAbsolute
  cases p.chars with
  | nil => simp
  | cons c cs => simp

theorem components_of_absolute (h : p.isAbsolute = true) : p.components = .root :: p.steps := by
  obtain ⟨cs, hcs⟩ := isAbsolute_iff.1 h
  have hfields : Text.fields (· == '/') p.chars = [] :: Text.fields (· == '/') cs := by
    rw [hcs, Text.fields, if_pos (by simp)]
  rw [components, lead, pieces, steps, hfields, List.filterMap_cons_none rfl, hcs]
  rfl

/-- A relative path's components are its steps, after a leading `.` if
there is one. -/
theorem components_of_relative (h : p.isAbsolute = false) :
    p.components =
      (if (Text.fields (· == '/') p.chars).head? = some ['.'] then [.current] else []) ++
        p.steps := by
  have hcs : ∀ cs, p.chars ≠ '/' :: cs := fun cs hcs => by
    rw [isAbsolute_iff.2 ⟨cs, hcs⟩] at h
    cases h
  unfold components lead pieces steps
  cases hchars : p.chars with
  | nil => rfl
  | cons c cs =>
    have hc : c ≠ '/' := fun hc => hcs cs (by rw [hchars, hc])
    cases hf : Text.fields (· == '/') (c :: cs) with
    | nil => exact absurd hf (Text.fields_ne_nil _ _)
    | cons f fs =>
      by_cases hdot : f = ['.']
      · subst hdot
        simp [hc, hf, Component.ofPiece?]
      · simp [hc, hf, hdot]

end Path

/-! ## Following a path -/

namespace Place

theorem walk_nil : s.walk [] = s := rfl

theorem walk_cons (cs : List Component) : s.walk (c :: cs) = (s.step c).walk cs := rfl

theorem walk_append (cs ds : List Component) : s.walk (cs ++ ds) = (s.walk cs).walk ds :=
  List.foldl_append ..

theorem step_root : s.step .root = absolute [] := by
  cases s <;> rfl

theorem step_current : s.step .current = s := by
  cases s <;> rfl

/-- **A path leads where its steps lead**, from the root if it is
absolute. -/
theorem walk_components (p : Path) (s : Place) :
    s.walk p.components = (if p.isAbsolute then absolute [] else s).walk p.steps := by
  cases h : p.isAbsolute with
  | true => rw [Path.components_of_absolute h, walk_cons, step_root]; rfl
  | false =>
    rw [Path.components_of_relative h, walk_append, if_neg Bool.false_ne_true]
    split
    · rw [walk_cons, step_current, walk_nil]
    · rw [walk_nil]

end Place

/-! ## Joining -/

namespace Path

theorem isAbsolute_join (p q : Path) : (p.join q).isAbsolute = (p.isAbsolute || q.isAbsolute) := by
  unfold join
  cases hq : q.isAbsolute with
  | true => simp [hq]
  | false =>
    rw [if_neg Bool.false_ne_true, Bool.or_false]
    cases hp : p.chars with
    | nil =>
      have hp' : p.isAbsolute = false := by simp [isAbsolute, hp]
      rw [hp', ← hq]
      rfl
    | cons c cs =>
      have hlast : (c :: cs).getLast? = some ((c :: cs).getLast (List.cons_ne_nil c cs)) :=
        List.getLast?_eq_some_getLast _
      have hp' : p.text.toList = c :: cs := hp
      simp only [hlast]
      split <;> simp [isAbsolute, chars, hp', String.toList_append]

/-- The pieces of a joined path are those of the one and then of the
other. A separator that the first one ends in is not doubled. -/
theorem fields_join (hq : q.isAbsolute = false) (hp : p.chars ≠ []) :
    ∃ fs, fs ≠ [] ∧
      Text.fields (· == '/') (p.join q).chars = fs ++ Text.fields (· == '/') q.chars ∧
      (Text.fields (· == '/') p.chars = fs ∨ Text.fields (· == '/') p.chars = fs ++ [[]]) := by
  rw [join, if_neg (by simp [hq])]
  cases hlast : p.chars.getLast? with
  | none => exact absurd (List.getLast?_eq_none_iff.1 hlast) hp
  | some c =>
    obtain ⟨cs, hcs⟩ := List.getLast?_eq_some_iff.1 hlast
    by_cases hc : c = '/'
    · -- the separator that is there ends an empty piece
      subst hc
      have hchars : (⟨p.text ++ q.text⟩ : Path).chars = cs ++ '/' :: q.chars := by
        rw [chars, String.toList_append]
        change p.chars ++ q.chars = _
        rw [hcs, List.append_assoc, List.singleton_append]
      refine ⟨Text.fields (· == '/') cs, Text.fields_ne_nil _ _, ?_, .inr ?_⟩
      · simp only [if_pos, hchars]
        rw [Text.fields_append (by simp)]
      · rw [hcs, Text.fields_append (by simp)]
        rfl
    · have hchars : (⟨p.text ++ "/" ++ q.text⟩ : Path).chars = p.chars ++ '/' :: q.chars := by
        simp [chars, String.toList_append]
      refine ⟨Text.fields (· == '/') p.chars, Text.fields_ne_nil _ _, ?_, .inl rfl⟩
      simp only [if_neg hc, hchars]
      rw [Text.fields_append (by simp)]

theorem join_of_chars_eq_nil (hp : p.chars = []) (q : Path) : p.join q = q := by
  unfold join
  split
  · rfl
  · rw [hp]
    rfl

/-- **Joined paths have the steps of the one and then of the other.** -/
theorem steps_join (hq : q.isAbsolute = false) : (p.join q).steps = p.steps ++ q.steps := by
  by_cases hp : p.chars = []
  · rw [join_of_chars_eq_nil hp, show p.steps = [] by rw [steps, hp]; rfl, List.nil_append]
  · obtain ⟨fs, -, hjoin, hfs⟩ := fields_join hq hp
    have hsteps : p.steps = fs.filterMap Component.ofPiece? := by
      rcases hfs with hfs | hfs
      · rw [steps, hfs]
      · rw [steps, hfs, List.filterMap_append]
        exact List.append_nil _
    rw [hsteps, steps, hjoin, List.filterMap_append]
    rfl

/-- What a path starts with is what a path joined to it starts with. -/
theorem head?_fields_join (hq : q.isAbsolute = false) (hp : p.chars ≠ []) :
    (Text.fields (· == '/') (p.join q).chars).head? = (Text.fields (· == '/') p.chars).head? := by
  obtain ⟨fs, hne, hjoin, hfs⟩ := fields_join hq hp
  rw [hjoin, List.head?_append_of_ne_nil _ hne]
  rcases hfs with hfs | hfs
  · rw [hfs]
  · rw [hfs, List.head?_append_of_ne_nil _ hne]

/-! ## Joining a name -/

theorem isAbsolute_of_not_mem (h : '/' ∉ n.toList) : (⟨n⟩ : Path).isAbsolute = false := by
  rw [Bool.eq_false_iff]
  intro habs
  obtain ⟨cs, hcs⟩ := isAbsolute_iff.1 habs
  exact h (show '/' ∈ (⟨n⟩ : Path).chars from hcs ▸ List.mem_cons_self ..)

theorem fields_of_not_mem (h : '/' ∉ n.toList) :
    Text.fields (· == '/') (⟨n⟩ : Path).chars = [n.toList] :=
  Text.fields_of_not_mem h

theorem steps_of_ofPiece? (hslash : '/' ∉ n.toList) (hc : Component.ofPiece? n.toList = some c) :
    (⟨n⟩ : Path).steps = [c] := by
  rw [steps, fields_of_not_mem hslash, List.filterMap_cons_some hc]
  rfl

/-- **A step joined to a path is one more component.** -/
theorem components_join_piece (hslash : '/' ∉ n.toList)
    (hc : Component.ofPiece? n.toList = some c) (p : Path) :
    (p.join ⟨n⟩).components = p.components ++ [c] := by
  have hrel := isAbsolute_of_not_mem hslash
  have hsteps : (p.join ⟨n⟩).steps = p.steps ++ [c] := by
    rw [steps_join hrel, steps_of_ofPiece? hslash hc]
  by_cases hp : p.chars = []
  · -- the step stands alone, and is no leading `.`
    have hdot : n.toList ≠ ['.'] := fun hdot => by
      rw [hdot] at hc
      cases hc
    have hcomponents : p.components = [] := by
      rw [components_of_relative (by rw [isAbsolute, hp]; rfl), steps, hp]
      rfl
    rw [join_of_chars_eq_nil hp, hcomponents, components_of_relative hrel,
      fields_of_not_mem hslash, steps_of_ofPiece? hslash hc, if_neg (by simpa using hdot)]
  · have habs : (p.join ⟨n⟩).isAbsolute = p.isAbsolute := by
      rw [isAbsolute_join, hrel, Bool.or_false]
    cases hpabs : p.isAbsolute with
    | true =>
      rw [components_of_absolute (habs.trans hpabs), components_of_absolute hpabs, hsteps,
        List.cons_append]
    | false =>
      rw [components_of_relative (habs.trans hpabs), components_of_relative hpabs, hsteps,
        head?_fields_join hrel hp, List.append_assoc]

theorem isAbsolute_of_isName (h : Component.IsName n) : (⟨n⟩ : Path).isAbsolute = false :=
  isAbsolute_of_not_mem h.2

theorem steps_of_isName (h : Component.IsName n) : (⟨n⟩ : Path).steps = [.name n] :=
  steps_of_ofPiece? h.2 h.1

theorem steps_join_name (h : Component.IsName n) (p : Path) :
    (p.join ⟨n⟩).steps = p.steps ++ [.name n] := by
  rw [steps_join (isAbsolute_of_isName h), steps_of_isName h]

theorem components_join_name (h : Component.IsName n) (p : Path) :
    (p.join ⟨n⟩).components = p.components ++ [.name n] :=
  components_join_piece h.2 h.1 p

/-- **Two names in two directories are one path** only if both are the
same. -/
theorem same_join_name {d e : Path} {m : String} (hn : Component.IsName n)
    (hm : Component.IsName m) :
    (d.join ⟨n⟩).same (e.join ⟨m⟩) = true ↔ n = m ∧ d.same e = true := by
  rw [same, same, components_join_name hn, components_join_name hm, beq_iff_eq, beq_iff_eq]
  constructor
  · intro h
    obtain ⟨hd, hname⟩ := List.append_inj' h rfl
    exact ⟨Component.name.inj (List.cons.inj hname).1, hd⟩
  · rintro ⟨rfl, hd⟩
    rw [hd]

end Path

namespace Place

/-- **Following a joined path is following one path after the other.** -/
theorem walk_components_join (p q : Path) (s : Place) :
    s.walk (p.join q).components = (s.walk p.components).walk q.components := by
  cases hq : q.isAbsolute with
  | true =>
    have hroot : q.components = .root :: q.steps := Path.components_of_absolute hq
    rw [Path.join, if_pos hq, hroot, walk_cons, walk_cons, step_root, step_root]
  | false =>
    rw [walk_components (p.join q), walk_components p, walk_components q, Path.isAbsolute_join,
      hq, Bool.or_false, Path.steps_join hq, walk_append, if_neg Bool.false_ne_true]

end Place

/-- **A joined path leads** where the second path leads from the first. -/
theorem Path.place_join_eq_walk (p q : Path) :
    (p.join q).place = p.place.walk q.components := Place.walk_components_join p q Place.here

/-! ## Canonical paths -/

namespace Place

variable {ns ms : List String} {cs : List Component} {k : Nat}

/-- A place whose names can be written. -/
def IsProper : Place → Prop
  | absolute ns => ∀ n ∈ ns, Component.IsName n
  | relative _ ns => ∀ n ∈ ns, Component.IsName n

theorem IsProper.step (hs : s.IsProper) (hc : c.IsProper) : (s.step c).IsProper := by
  -- a step puts a name at the end, drops one from there, or keeps them all
  have hsnoc : ∀ {ns : List String} {n : String}, (∀ m ∈ ns, Component.IsName m) →
      Component.IsName n → ∀ m ∈ ns ++ [n], Component.IsName m := by
    intro ns n hns hn m hm
    rcases List.mem_append.1 hm with hm | hm
    · exact hns m hm
    · exact List.mem_singleton.1 hm ▸ hn
  have hdrop : ∀ {ns : List String}, (∀ m ∈ ns, Component.IsName m) →
      ∀ m ∈ ns.dropLast, Component.IsName m :=
    fun hns m hm => hns m ((List.dropLast_sublist _).subset hm)
  match s, c with
  | _, .root => rw [step_root]; exact fun n hn => absurd hn List.not_mem_nil
  | _, .current => rwa [step_current]
  | absolute ns, .parent => exact hdrop hs
  | absolute ns, .name n => exact hsnoc hs hc
  | relative k [], .parent => exact hs
  | relative k (m :: ns), .parent => exact hdrop hs
  | relative k [], .name n => exact hsnoc hs hc
  | relative k (m :: ns), .name n => exact hsnoc hs hc

theorem IsProper.walk (hs : s.IsProper) (hcs : ∀ c ∈ cs, c.IsProper) : (s.walk cs).IsProper := by
  induction cs generalizing s with
  | nil => exact hs
  | cons c cs ih =>
    exact ih (hs.step (hcs c (List.mem_cons_self ..))) fun d hd => hcs d (List.mem_cons_of_mem _ hd)

/-- Wherever a path leads can be written. -/
theorem isProper_place (p : Path) : p.place.IsProper := by
  have hstart : (if p.isAbsolute then absolute [] else here).IsProper := by
    split <;> exact fun n hn => absurd hn List.not_mem_nil
  rw [Path.place, walk_components]
  exact hstart.walk fun c hc => Path.isProper_of_mem_steps hc

theorem exists_walk_absolute (ns : List String) (cs : List Component) :
    ∃ ms, (absolute ns).walk cs = absolute ms := by
  induction cs generalizing ns with
  | nil => exact ⟨ns, rfl⟩
  | cons c cs ih =>
    cases c with
    | root => exact ih []
    | current => exact ih ns
    | parent => exact ih ns.dropLast
    | name n => exact ih (ns ++ [n])

/-- Only the root leads from a relative place to an absolute one. -/
theorem exists_walk_relative {cs : List Component} (hcs : Component.root ∉ cs) (k : Nat)
    (ns : List String) : ∃ j ms, (relative k ns).walk cs = relative j ms := by
  induction cs generalizing k ns with
  | nil => exact ⟨k, ns, rfl⟩
  | cons c cs ih =>
    rw [List.mem_cons, not_or] at hcs
    obtain ⟨hne, hcs⟩ := hcs
    cases c with
    | root => exact absurd rfl hne
    | current => exact ih hcs k ns
    | parent =>
      cases ns with
      | nil => exact ih hcs (k + 1) []
      | cons n ns => exact ih hcs k (n :: ns).dropLast
    | name n =>
      cases ns with
      | nil => exact ih hcs k [n]
      | cons m ns => exact ih hcs k (m :: ns ++ [n])

/-- Names lead down. -/
theorem walk_names_absolute : (absolute ms).walk (ns.map .name) = absolute (ms ++ ns) := by
  induction ns generalizing ms with
  | nil => rw [List.append_nil]; rfl
  | cons n ns ih =>
    rw [List.map_cons, walk_cons, ← List.singleton_append, ← List.append_assoc]
    exact ih

theorem walk_names_relative : (relative k ms).walk (ns.map .name) = relative k (ms ++ ns) := by
  induction ns generalizing ms with
  | nil => rw [List.append_nil]; rfl
  | cons n ns ih =>
    have hstep : (relative k ms).step (.name n) = relative k (ms ++ [n]) := by cases ms <;> rfl
    rw [List.map_cons, walk_cons, hstep, ih, List.append_assoc, List.singleton_append]

theorem walk_parents_relative (j k : Nat) :
    (relative k []).walk (List.replicate j .parent) = relative (k + j) [] := by
  induction j generalizing k with
  | zero => rfl
  | succ j ih =>
    rw [List.replicate_succ, walk_cons]
    exact (ih (k + 1)).trans (by rw [Nat.add_assoc, Nat.add_comm 1 j])

/-- The steps of words that stand between separators. -/
theorem steps_words {ws : List String} (h : ∀ w ∈ ws, '/' ∉ w.toList) :
    (Text.fields (· == '/') (List.intercalate ['/'] (ws.map String.toList))).filterMap
        Component.ofPiece? = ws.filterMap fun w => Component.ofPiece? w.toList := by
  cases ws with
  | nil => rfl
  | cons w ws =>
    rw [Text.fields_intercalate (by simp), List.filterMap_map]
    · rfl
    · intro p hp
      obtain ⟨v, hv, rfl⟩ := List.mem_map.1 hp
      exact h v hv

theorem filterMap_words (h : ∀ n ∈ ns, Component.IsName n) :
    (ns.filterMap fun w => Component.ofPiece? w.toList) = ns.map .name := by
  rw [← List.filterMap_eq_map]
  exact List.filterMap_congr fun n hn => (h n hn).1

theorem chars_toPath_absolute (ns : List String) :
    (absolute ns).toPath.chars = '/' :: List.intercalate ['/'] (ns.map String.toList) :=
  String.toList_ofList

theorem isAbsolute_toPath_absolute (ns : List String) : (absolute ns).toPath.isAbsolute = true :=
  Path.isAbsolute_iff.2 ⟨_, chars_toPath_absolute ns⟩

theorem steps_toPath_absolute (h : (absolute ns).IsProper) :
    (absolute ns).toPath.steps = ns.map .name := by
  rw [Path.steps, chars_toPath_absolute, Text.fields, if_pos (by simp),
    List.filterMap_cons_none rfl, steps_words fun n hn => (h n hn).2, filterMap_words h]

/-- A word that does not start with a separator. -/
theorem head?_intercalate {w : List Char} (hnil : w ≠ []) (hw : '/' ∉ w) (ws : List (List Char)) :
    (List.intercalate ['/'] (w :: ws)).head? ≠ some '/' := by
  obtain ⟨c, cs, rfl⟩ := List.exists_cons_of_ne_nil hnil
  have hc : c ≠ '/' := fun hc => hw (hc ▸ List.mem_cons_self ..)
  cases ws with
  | nil => simpa using hc
  | cons v vs => simpa [List.intercalate_cons_cons] using hc

theorem chars_toPath_relative (h : ¬ (k = 0 ∧ ns = [])) :
    (relative k ns).toPath.chars =
      List.intercalate ['/'] ((List.replicate k ".." ++ ns).map String.toList) := by
  match k, ns with
  | 0, [] => exact absurd ⟨rfl, rfl⟩ h
  | 0, n :: ns => exact String.toList_ofList
  | k + 1, ns => exact String.toList_ofList

theorem isProper_of_mem_words (h : (relative k ns).IsProper) :
    ∀ w ∈ List.replicate k ".." ++ ns, w.toList ≠ [] ∧ '/' ∉ w.toList := by
  intro w hw
  rcases List.mem_append.1 hw with hw | hw
  · rw [List.eq_of_mem_replicate hw]
    decide
  · exact ⟨(h w hw).ne_nil, (h w hw).2⟩

theorem isAbsolute_toPath_relative (h : (relative k ns).IsProper) :
    (relative k ns).toPath.isAbsolute = false := by
  by_cases hne : k = 0 ∧ ns = []
  · obtain ⟨rfl, rfl⟩ := hne
    rfl
  · have hwords := isProper_of_mem_words h
    rw [Path.isAbsolute, chars_toPath_relative hne, beq_eq_false_iff_ne]
    cases hws : List.replicate k ".." ++ ns with
    | nil =>
      obtain ⟨hk, hns⟩ := List.append_eq_nil_iff.1 hws
      exact absurd ⟨(List.replicate_eq_nil_iff _).1 hk, hns⟩ hne
    | cons w ws =>
      obtain ⟨hnil, hslash⟩ := hwords w (hws ▸ List.mem_cons_self ..)
      exact head?_intercalate hnil hslash _

theorem steps_toPath_relative (h : (relative k ns).IsProper) :
    (relative k ns).toPath.steps = List.replicate k .parent ++ ns.map .name := by
  by_cases hne : k = 0 ∧ ns = []
  · obtain ⟨rfl, rfl⟩ := hne
    rfl
  · have hup : Component.ofPiece? "..".toList = some .parent := rfl
    rw [Path.steps, chars_toPath_relative hne,
      steps_words fun w hw => (isProper_of_mem_words h w hw).2, List.filterMap_append,
      filterMap_words h]
    simp only [List.filterMap_replicate, hup]

/-- **A canonical path leads to the place it was made of.** -/
theorem place_toPath (h : s.IsProper) : s.toPath.place = s := by
  cases s with
  | absolute ns =>
    rw [Path.place, walk_components, isAbsolute_toPath_absolute, if_pos rfl,
      steps_toPath_absolute h, walk_names_absolute, List.nil_append]
  | relative k ns =>
    rw [Path.place, walk_components, isAbsolute_toPath_relative h, if_neg Bool.false_ne_true,
      steps_toPath_relative h, walk_append, here, walk_parents_relative, Nat.zero_add,
      walk_names_relative, List.nil_append]

end Place

namespace Path

variable {d : Path}

/-- An absolute path in its canonical form. -/
def IsCanonical (p : Path) : Prop := p.isAbsolute = true ∧ p.normalize = p

/-- **The canonical path leads where the path leads.** -/
theorem place_normalize (p : Path) : p.normalize.place = p.place :=
  Place.place_toPath (Place.isProper_place p)

theorem normalize_normalize (p : Path) : p.normalize.normalize = p.normalize := by
  rw [normalize, place_normalize, normalize]

/-- An absolute path leads to an absolute place. -/
theorem exists_place_of_absolute (h : p.isAbsolute = true) :
    ∃ ns, p.place = .absolute ns ∧ ∀ n ∈ ns, Component.IsName n := by
  obtain ⟨ns, hns⟩ := Place.exists_walk_absolute [] p.steps
  have hplace : p.place = .absolute ns := by rw [place, Place.walk_components, if_pos h, hns]
  have hproper := Place.isProper_place p
  rw [hplace] at hproper
  exact ⟨ns, hplace, hproper⟩

theorem isCanonical_normalize (h : p.isAbsolute = true) : p.normalize.IsCanonical := by
  obtain ⟨ns, hns, -⟩ := exists_place_of_absolute h
  refine ⟨?_, normalize_normalize p⟩
  rw [normalize, hns]
  exact Place.isAbsolute_toPath_absolute ns

theorem root_not_mem_steps (p : Path) : Component.root ∉ p.steps := by
  intro hroot
  obtain ⟨piece, -, hpiece⟩ := List.mem_filterMap.1 hroot
  unfold Component.ofPiece? at hpiece
  split at hpiece <;> cases hpiece

/-- A relative path leads to a relative place. -/
theorem exists_place_of_relative (h : p.isAbsolute = false) :
    ∃ k ns, p.place = .relative k ns := by
  rw [place, Place.walk_components, h]
  exact Place.exists_walk_relative p.root_not_mem_steps 0 []

/-- **The canonical path is absolute where the path is.** -/
theorem isAbsolute_normalize (p : Path) : p.normalize.isAbsolute = p.isAbsolute := by
  cases h : p.isAbsolute with
  | true => exact (isCanonical_normalize h).1
  | false =>
    obtain ⟨k, ns, hns⟩ := exists_place_of_relative h
    have hproper := Place.isProper_place p
    rw [hns] at hproper
    rw [normalize, hns, Place.isAbsolute_toPath_relative hproper]

/-- Whatever is seen from an absolute directory has a canonical absolute
path. -/
theorem isCanonical_normalizeIn (h : d.isAbsolute = true) (p : Path) :
    (normalizeIn d p).IsCanonical :=
  isCanonical_normalize (by rw [isAbsolute_join, h, Bool.true_or])

theorem isCanonical_toPath {ns : List String} (h : (Place.absolute ns).IsProper) :
    (Place.absolute ns).toPath.IsCanonical :=
  ⟨Place.isAbsolute_toPath_absolute ns, by rw [normalize, Place.place_toPath h]⟩

/-- A canonical absolute path is a list of names. -/
theorem IsCanonical.exists_names (h : p.IsCanonical) :
    ∃ ns, p = (Place.absolute ns).toPath ∧ ∀ n ∈ ns, Component.IsName n := by
  obtain ⟨ns, hns, hnames⟩ := exists_place_of_absolute h.1
  exact ⟨ns, by rw [← hns]; exact h.2.symm, hnames⟩

end Path

end CompileCommands
