import CompileCommands.Proofs.Path.Canonical
import CompileCommands.Similarity.Score
import Mathlib.Data.List.DropRight
/-!
# One spelling for each path

What a path means is its components, and a path can be put together from
them again (`components_spelled`). The directory that a path lies in has
the components but the last (`map_components_parent?`), so how alike two
files are depends on no spelling either (`similarity_congr`).
-/

namespace CompileCommands

variable {p q r : Path} {c : Component} {ps : List (List Char)} {piece : List Char}

namespace Component

/-- Nothing between separators stands for the root. -/
theorem ofPiece?_ne_root (piece : List Char) : ofPiece? piece ≠ some root := by
  unfold ofPiece?
  split <;> exact fun h => by cases h

theorem ofPiece?_ne_current (piece : List Char) : ofPiece? piece ≠ some current := by
  unfold ofPiece?
  split <;> exact fun h => by cases h

theorem toList_text_of_ofPiece? (hc : ofPiece? piece = some c) : c.text.toList = piece := by
  cases c with
  | root => exact absurd hc (ofPiece?_ne_root piece)
  | current => exact absurd hc (ofPiece?_ne_current piece)
  | name n => exact toList_of_ofPiece? hc
  | parent =>
    unfold ofPiece? at hc
    split at hc
    · cases hc
    · cases hc
    · rfl
    · cases hc

/-- **A step is read as it is written.** -/
theorem ofPiece?_text (hc : ofPiece? piece = some c) (hslash : '/' ∉ piece) :
    ofPiece? c.text.toList = some c ∧ '/' ∉ c.text.toList := by
  cases c with
  | root => exact absurd hc (ofPiece?_ne_root piece)
  | current => exact absurd hc (ofPiece?_ne_current piece)
  | parent => decide
  | name n => exact isProper_of_ofPiece? hslash hc

end Component

namespace Path

/-! ## Put together again -/

/-- The path put together from its components. Two paths have the same
components exactly if they are spelled the same way. -/
def spelled (p : Path) : Path := empty.joinAll p.components

/-- **Steps joined one by one** are as many components more. -/
theorem components_joinAll_steps {cs : List Component}
    (hcs : ∀ c ∈ cs, Component.ofPiece? c.text.toList = some c ∧ '/' ∉ c.text.toList) (p : Path) :
    (p.joinAll cs).components = p.components ++ cs := by
  induction cs generalizing p with
  | nil => rw [List.append_nil]; rfl
  | cons c cs ih =>
    obtain ⟨hc, hcs⟩ := List.forall_mem_cons.1 hcs
    change ((p.join ⟨c.text⟩).joinAll cs).components = _
    rw [ih hcs, components_join_piece hc.2 hc.1, List.append_assoc, List.singleton_append]

theorem ofPiece?_text_of_mem_steps (hc : c ∈ p.steps) :
    Component.ofPiece? c.text.toList = some c ∧ '/' ∉ c.text.toList := by
  obtain ⟨piece, hpiece, hc⟩ := List.mem_filterMap.1 hc
  exact Component.ofPiece?_text hc (Text.not_mem_of_mem_fields hpiece)

/-- What a path that is not absolute starts with. -/
theorem lead_pieces_of_relative (h : p.isAbsolute = false) :
    ∃ fs, fs = Text.fields (· == '/') p.chars ∧
      p.lead = (if fs.head? = some ['.'] then some .current else none) ∧
      p.pieces = if fs.head? = some ['.'] then fs.tail else fs := by
  refine ⟨_, rfl, ?_⟩
  have hchars : ∀ cs, p.chars ≠ '/' :: cs := fun cs hcs => by
    rw [isAbsolute_iff.2 ⟨cs, hcs⟩] at h
    cases h
  unfold lead pieces
  split
  · rename_i cs hcs
    exact absurd hcs (hchars cs)
  · exact ⟨rfl, rfl⟩

/-- The components of a path are its steps after what it starts with. -/
theorem components_eq_lead_append (p : Path) : p.components = p.lead.toList ++ p.steps := by
  cases habs : p.isAbsolute with
  | true =>
    obtain ⟨cs, hcs⟩ := isAbsolute_iff.1 habs
    have hlead : p.lead = some .root := by rw [lead, hcs]; rfl
    rw [components_of_absolute habs, hlead]
    rfl
  | false =>
    obtain ⟨fs, rfl, hlead, -⟩ := lead_pieces_of_relative habs
    rw [components_of_relative habs, hlead]
    split
    · rfl
    · rfl

theorem lead_cases (p : Path) : p.lead = some .root ∨ p.lead = some .current ∨ p.lead = none := by
  unfold lead
  split
  · exact .inl rfl
  · split
    · exact .inr (.inl rfl)
    · exact .inr (.inr rfl)

/-- **Steps joined after a lead** are the components of the path. -/
theorem components_joinAll_lead {l : Option Component}
    (hl : l = some .root ∨ l = some .current ∨ l = none) {cs : List Component}
    (hcs : ∀ c ∈ cs, Component.ofPiece? c.text.toList = some c ∧ '/' ∉ c.text.toList) :
    (empty.joinAll (l.toList ++ cs)).components = l.toList ++ cs := by
  have hsteps := fun q : Path => components_joinAll_steps hcs q
  rcases hl with rfl | rfl | rfl
  · rw [Option.toList_some, List.singleton_append]
    exact hsteps ⟨"/"⟩
  · rw [Option.toList_some, List.singleton_append]
    exact hsteps ⟨"."⟩
  · exact hsteps empty

/-- **The components of a path put together from components** are those
components. -/
theorem components_spelled (p : Path) : p.spelled.components = p.components := by
  rw [spelled, components_eq_lead_append p]
  exact components_joinAll_lead p.lead_cases fun c hc => ofPiece?_text_of_mem_steps hc

/-- So are those of a path put together from the first of them. -/
theorem components_joinAll_of_initial {cs : List Component} (hcs : cs <+: p.components) :
    (empty.joinAll cs).components = cs := by
  have hsteps : ∀ {ds : List Component}, ds <+: p.steps →
      ∀ c ∈ ds, Component.ofPiece? c.text.toList = some c ∧ '/' ∉ c.text.toList :=
    fun hds c hc => ofPiece?_text_of_mem_steps (hds.subset hc)
  rw [components_eq_lead_append] at hcs
  cases hlead : p.lead with
  | none =>
    rw [hlead, Option.toList_none, List.nil_append] at hcs
    exact components_joinAll_steps (hsteps hcs) empty
  | some c =>
    rw [hlead] at hcs
    cases cs with
    | nil => rfl
    | cons d ds =>
      rw [Option.toList_some, List.singleton_append, List.cons_prefix_cons] at hcs
      have hl := p.lead_cases
      rw [hlead, ← hcs.1] at hl
      have hjoined := components_joinAll_lead hl (hsteps hcs.2)
      rwa [Option.toList_some, List.singleton_append] at hjoined

/-! ## What the components say -/

/-- A field is empty only where a separator or the end comes first. -/
theorem ne_nil_of_head?_fields {a : Char} {cs : List Char} (ha : a ≠ '/')
    (hpiece : (Text.fields (· == '/') (a :: cs)).head? = some piece) : piece ≠ [] := by
  rw [Text.fields, if_neg (by simpa using ha)] at hpiece
  split at hpiece <;> obtain rfl := Option.some.inj hpiece <;> exact List.cons_ne_nil _ _

/-- **Only the empty path** has no components. -/
theorem components_eq_nil_iff : p.components = [] ↔ p.chars = [] := by
  constructor
  · intro hnil
    by_contra hne
    obtain ⟨a, cs, hchars⟩ := List.exists_cons_of_ne_nil hne
    cases habs : p.isAbsolute with
    | true =>
      rw [components_of_absolute habs] at hnil
      exact List.cons_ne_nil _ _ hnil
    | false =>
      have ha : a ≠ '/' := fun ha => by
        rw [isAbsolute_iff.2 ⟨cs, by rw [hchars, ha]⟩] at habs
        cases habs
      rw [components_of_relative habs, steps, hchars] at hnil
      obtain ⟨f, fs, hfields⟩ :=
        List.exists_cons_of_ne_nil (Text.fields_ne_nil (· == '/') (a :: cs))
      have hfirst : f ≠ [] := ne_nil_of_head?_fields ha (by rw [hfields]; rfl)
      rw [hfields] at hnil
      -- the first field is a leading `.` or a step
      by_cases hdot : f = ['.']
      · rw [hdot] at hnil
        exact List.cons_ne_nil _ _ hnil
      · have hstep := List.filterMap_eq_nil_iff.1 (List.append_eq_nil_iff.1 hnil).2 f
          (List.mem_cons_self ..)
        by_cases hup : f = ['.', '.']
        · rw [hup] at hstep
          cases hstep
        · rw [Component.ofPiece?_of_ne hfirst hdot hup] at hstep
          cases hstep
  · intro hnil
    rw [components, lead, pieces, hnil]
    rfl

theorem isAbsolute_eq_head? (p : Path) : p.isAbsolute = (p.components.head? == some .root) := by
  cases habs : p.isAbsolute with
  | true => rw [components_of_absolute habs]; rfl
  | false =>
    symm
    rw [beq_eq_false_iff_ne]
    intro hroot
    have hmem := List.mem_of_head? hroot
    rw [components_of_relative habs, List.mem_append] at hmem
    rcases hmem with hlead | hstep
    · split at hlead
      · cases List.mem_singleton.1 hlead
      · exact List.not_mem_nil hlead
    · exact p.root_not_mem_steps hstep

/-- The steps of a path are its components without what it starts with. -/
theorem steps_eq_filter (p : Path) :
    p.steps = p.components.filter fun c => c != .root && c != .current := by
  have hsteps : p.steps.filter (fun c => c != .root && c != .current) = p.steps := by
    refine List.filter_eq_self.2 fun c hc => ?_
    obtain ⟨piece, -, hpiece⟩ := List.mem_filterMap.1 hc
    have hroot : c ≠ .root := fun heq => Component.ofPiece?_ne_root piece (heq ▸ hpiece)
    have hcurrent : c ≠ .current := fun heq => Component.ofPiece?_ne_current piece (heq ▸ hpiece)
    rw [Bool.and_eq_true, bne_iff_ne, bne_iff_ne]
    exact ⟨hroot, hcurrent⟩
  rw [components_eq_lead_append, List.filter_append, hsteps]
  rcases p.lead_cases with hlead | hlead | hlead <;> rw [hlead] <;> rfl

/-- **The first components of a path** start where it starts. -/
theorem isAbsolute_of_initial (hne : p.components ≠ []) (hpq : p.components <+: q.components) :
    p.isAbsolute = q.isAbsolute := by
  rw [isAbsolute_eq_head?, isAbsolute_eq_head?]
  obtain ⟨c, cs, hp⟩ := List.exists_cons_of_ne_nil hne
  obtain ⟨ds, hq⟩ := hpq
  rw [← hq, hp]
  rfl

theorem steps_of_initial (hpq : p.components <+: q.components) : p.steps <+: q.steps := by
  rw [steps_eq_filter p, steps_eq_filter q]
  exact hpq.filter _

/-! ## A lead and the pieces after it -/

/-- Whether the pieces `ps` can stand after the lead `l`: none of them
holds a separator, and without a lead the first one is not read as a
lead of its own. -/
structure Follows (l : Option Component) (ps : List (List Char)) : Prop where
  isLead : l = some .root ∨ l = some .current ∨ l = none
  pieces : ∀ piece ∈ ps, '/' ∉ piece
  first : l = none → ∀ piece, ps.head? = some piece → piece ≠ [] ∧ piece ≠ ['.']

theorem Follows.of_initial {l : Option Component} {qs : List (List Char)} (h : Follows l ps)
    (hqs : qs <+: ps) : Follows l qs where
  isLead := h.isLead
  pieces piece hpiece := h.pieces piece (hqs.subset hpiece)
  first hl piece hpiece := by
    obtain ⟨rest, rfl⟩ := hqs
    refine h.first hl piece ?_
    rw [List.head?_append, hpiece]
    rfl

/-- **A path made of a lead and pieces** has the components that they
stand for. -/
theorem components_ofPieces {l : Option Component} (h : Follows l ps) :
    (ofPieces l ps).components = l.toList ++ ps.filterMap Component.ofPiece? := by
  have hfields : ps ≠ [] → Text.fields (· == '/') (List.intercalate ['/'] ps) = ps := fun hps =>
    Text.fields_intercalate hps h.pieces
  rcases h.isLead with rfl | rfl | rfl
  · have hchars : (ofPieces (some .root) ps).chars = '/' :: List.intercalate ['/'] ps :=
      String.toList_ofList
    rw [components_of_absolute (isAbsolute_iff.2 ⟨_, hchars⟩), steps, hchars, Text.fields,
      if_pos (by simp), List.filterMap_cons_none rfl]
    by_cases hps : ps = []
    · subst hps; rfl
    · rw [hfields hps]; rfl
  · have hchars : (ofPieces (some .current) ps).chars = List.intercalate ['/'] (['.'] :: ps) :=
      String.toList_ofList
    have hdot : Text.fields (· == '/') (List.intercalate ['/'] (['.'] :: ps)) = ['.'] :: ps :=
      Text.fields_intercalate (List.cons_ne_nil _ _)
        (List.forall_mem_cons.2 ⟨by decide, h.pieces⟩)
    have hrel : (ofPieces (some .current) ps).isAbsolute = false := by
      rw [isAbsolute, hchars]
      cases ps <;> rfl
    rw [components_of_relative hrel, steps, hchars, hdot]
    rfl
  · have hchars : (ofPieces none ps).chars = List.intercalate ['/'] ps := String.toList_ofList
    by_cases hps : ps = []
    · subst hps; rfl
    obtain ⟨first, rest, rfl⟩ := List.exists_cons_of_ne_nil hps
    obtain ⟨hne, hdot⟩ := h.first rfl first rfl
    have hrel : (ofPieces none (first :: rest)).isAbsolute = false := by
      rw [isAbsolute, hchars, beq_eq_false_iff_ne]
      exact Place.head?_intercalate hne (h.pieces first (List.mem_cons_self ..)) rest
    have hhead : (first :: rest).head? ≠ some ['.'] := fun hhead => hdot (Option.some.inj hhead)
    rw [components_of_relative hrel, steps, hchars, hfields hps, if_neg hhead]
    rfl

/-! ## Without the idle pieces at the end -/

theorem initial_trimPieces (ps : List (List Char)) : trimPieces ps <+: ps :=
  List.rdropWhile_prefix isIdle ps

theorem filterMap_trimPieces (ps : List (List Char)) :
    (trimPieces ps).filterMap Component.ofPiece? = ps.filterMap Component.ofPiece? := by
  have hdrop : ∀ qs : List (List Char),
      (qs.dropWhile isIdle).filterMap Component.ofPiece? = qs.filterMap Component.ofPiece? := by
    intro qs
    induction qs with
    | nil => rfl
    | cons q qs ih =>
      by_cases hq : isIdle q = true
      · rw [List.dropWhile_cons_of_pos hq, ih,
          List.filterMap_cons_none (Option.isNone_iff_eq_none.1 hq)]
      · rw [List.dropWhile_cons_of_neg hq]
  rw [trimPieces, List.filterMap_reverse, hdrop, List.filterMap_reverse, List.reverse_reverse]

/-- **Separators at the end of a path** make no difference to what it
means. -/
theorem components_of_chars_append {cs : List Char} (hq : q.chars ≠ [])
    (hcs : ∀ c ∈ cs, (c == '/') = true) (hchars : p.chars = q.chars ++ cs) :
    p.components = q.components ∧ p.steps = q.steps ∧ p.isAbsolute = q.isAbsolute := by
  obtain ⟨fs, hfs, hfields⟩ := Text.exists_fields_append q.chars hcs
  rw [← hchars] at hfields
  have hidle : fs.filterMap Component.ofPiece? = [] :=
    List.filterMap_eq_nil_iff.2 fun f hf => by rw [hfs f hf]; rfl
  have hsteps : p.steps = q.steps := by
    rw [steps, hfields, List.filterMap_append, hidle, List.append_nil]
    rfl
  have habs : p.isAbsolute = q.isAbsolute := by
    rw [isAbsolute, isAbsolute, hchars, List.head?_append_of_ne_nil _ hq]
  refine ⟨?_, hsteps, habs⟩
  cases hqabs : q.isAbsolute with
  | true => rw [components_of_absolute (habs.trans hqabs), components_of_absolute hqabs, hsteps]
  | false =>
    rw [components_of_relative (habs.trans hqabs), components_of_relative hqabs, hsteps, hfields,
      List.head?_append_of_ne_nil _ (Text.fields_ne_nil _ _)]

/-- **A path's own pieces follow its lead**, if there is a step among
them. -/
theorem follows_pieces (h : trimPieces p.pieces ≠ []) : Follows p.lead p.pieces := by
  cases habs : p.isAbsolute with
  | true =>
    obtain ⟨cs, hcs⟩ := isAbsolute_iff.1 habs
    have hlead : p.lead = some .root := by rw [lead, hcs]; rfl
    have hpieces : p.pieces = Text.fields (· == '/') cs := by rw [pieces, hcs]; rfl
    rw [hlead, hpieces]
    exact ⟨.inl rfl, fun piece => Text.not_mem_of_mem_fields, fun hl => by cases hl⟩
  | false =>
    obtain ⟨fs, hfs, hlead, hpieces⟩ := lead_pieces_of_relative habs
    rw [hpieces] at h
    rw [hlead, hpieces]
    split at h
    · rename_i hdot
      rw [if_pos hdot, if_pos hdot]
      refine ⟨.inr (.inl rfl), fun piece hpiece => ?_, fun hl => by cases hl⟩
      exact Text.not_mem_of_mem_fields (hfs ▸ List.mem_of_mem_tail hpiece)
    · rename_i hdot
      rw [if_neg hdot, if_neg hdot]
      refine ⟨.inr (.inr rfl), fun piece hpiece => Text.not_mem_of_mem_fields (hfs ▸ hpiece),
        fun _ piece hpiece => ⟨?_, fun heq => hdot (heq ▸ hpiece)⟩⟩
      -- only the empty path starts with an empty piece, and it has no step
      subst hfs
      cases hchars : p.chars with
      | nil =>
        rw [hchars] at h
        exact absurd rfl h
      | cons a cs =>
        rw [hchars] at hpiece
        refine ne_nil_of_head?_fields (fun ha => ?_) hpiece
        rw [isAbsolute_iff.2 ⟨cs, by rw [hchars, ha]⟩] at habs
        cases habs

/-- **The directory a path lies in** has its components but the last. The
root and the path without components lie in none. -/
theorem map_components_parent? (p : Path) :
    p.parent?.map components =
      (p.components.getLast?.filter fun c => c != .root).map fun _ => p.components.dropLast := by
  by_cases hps : trimPieces p.pieces = []
  · -- nothing but the lead
    have hcomponents : p.components = p.lead.toList := by
      rw [components, ← filterMap_trimPieces, hps]
      exact List.append_nil _
    rw [hcomponents, parent?, hps]
    rcases p.lead_cases with hlead | hlead | hlead <;> rw [hlead] <;> rfl
  · obtain ⟨front, last, hlast⟩ := (List.eq_nil_or_concat' (trimPieces p.pieces)).resolve_left hps
    -- what is left at the end is a step
    have hidle : ¬ isIdle last = true := by
      have hnot := List.rdropWhile_last_not isIdle p.pieces hps
      have htrim : p.pieces.rdropWhile isIdle = front ++ [last] := hlast
      simpa only [htrim, List.getLast_concat] using hnot
    obtain ⟨c, hc⟩ := Option.ne_none_iff_exists'.1 fun hnone =>
      hidle (Option.isNone_iff_eq_none.2 hnone)
    have hparent : p.parent? = some (ofPieces p.lead (trimPieces front)) := by
      rw [parent?, hlast]
      split
      · rename_i hnil _
        exact absurd hnil (List.concat_ne_nil _ _)
      · rename_i hnil _
        exact absurd hnil (List.concat_ne_nil _ _)
      · rw [List.dropLast_concat]
    have hfront : (ofPieces p.lead (trimPieces front)).components =
        p.lead.toList ++ front.filterMap Component.ofPiece? := by
      have hfollows : Follows p.lead (trimPieces front) :=
        (follows_pieces hps).of_initial ((initial_trimPieces front).trans
          ((hlast ▸ List.prefix_append front [last]).trans (initial_trimPieces p.pieces)))
      rw [components_ofPieces hfollows, filterMap_trimPieces]
    have hcomponents : p.components =
        p.lead.toList ++ front.filterMap Component.ofPiece? ++ [c] := by
      rw [components, ← filterMap_trimPieces, hlast, List.filterMap_append,
        List.filterMap_cons_some hc, List.append_assoc]
      rfl
    have hne : (c != .root) = true :=
      bne_iff_ne.2 fun hroot => Component.ofPiece?_ne_root last (hroot ▸ hc)
    rw [hparent, hcomponents, List.getLast?_concat, List.dropLast_concat, Option.map_some, hfront,
      Option.filter_some, if_pos hne]
    rfl

/-! ## The shortest spelling -/

/-- Names that are kept on a walk have been there before, or are stepped
to. -/
theorem sum_names_le_of_walk {ms ns : List String} {cs : List Component}
    (hwalk : (Place.absolute ms).walk cs = .absolute ns) :
    (ns.map fun n => n.toList.length + 1).sum ≤
      (ms.map fun n => n.toList.length + 1).sum +
        (cs.map fun c => c.text.toList.length + 1).sum := by
  induction cs generalizing ms with
  | nil =>
    obtain rfl := Place.absolute.inj hwalk
    exact Nat.le_refl _
  | cons c cs ih =>
    rw [List.map_cons, List.sum_cons]
    cases c with
    | root =>
      have hrest := ih (show (Place.absolute []).walk cs = .absolute ns from hwalk)
      rw [List.map_nil, List.sum_nil] at hrest
      omega
    | current =>
      have hrest := ih (show (Place.absolute ms).walk cs = .absolute ns from hwalk)
      omega
    | parent =>
      have hrest := ih (show (Place.absolute (ms.dropLast)).walk cs = .absolute ns from hwalk)
      rcases List.eq_nil_or_concat' ms with rfl | ⟨ls, n, rfl⟩
      · rw [List.dropLast_nil] at hrest
        omega
      · rw [List.dropLast_concat] at hrest
        rw [List.map_append, List.sum_append]
        omega
    | name n =>
      have hrest := ih (show (Place.absolute (ms ++ [n])).walk cs = .absolute ns from hwalk)
      rw [List.map_append, List.sum_append, List.map_singleton, List.sum_singleton] at hrest
      change _ ≤ _ + (n.toList.length + 1 + _)
      omega

/-- Each step of a path takes a stretch of its text. -/
theorem sum_steps_le (ps : List (List Char)) :
    ((ps.filterMap Component.ofPiece?).map fun c => c.text.toList.length + 1).sum ≤
      (ps.map fun piece => piece.length + 1).sum := by
  induction ps with
  | nil => exact Nat.le_refl _
  | cons piece ps ih =>
    rw [List.map_cons, List.sum_cons]
    cases hc : Component.ofPiece? piece with
    | none =>
      rw [List.filterMap_cons_none hc]
      omega
    | some c =>
      rw [List.filterMap_cons_some hc, List.map_cons, List.sum_cons,
        Component.toList_text_of_ofPiece? hc]
      omega

/-- **No spelling of an absolute path is shorter** than the canonical one. -/
theorem length_normalize_le (hp : p.isAbsolute = true) :
    p.normalize.chars.length ≤ p.chars.length := by
  obtain ⟨cs, hcs⟩ := isAbsolute_iff.1 hp
  obtain ⟨ns, hns, -⟩ := exists_place_of_absolute hp
  have hwalk : (Place.absolute []).walk p.steps = .absolute ns := by
    rw [← hns, place, Place.walk_components, if_pos hp]
  have hfields : Text.fields (· == '/') p.chars = [] :: Text.fields (· == '/') cs := by
    rw [hcs, Text.fields, if_pos (by simp)]
  -- the text is what stands between the separators, and the separators
  have htext := Text.length_intercalate '/' (Text.fields_ne_nil (· == '/') p.chars)
  rw [Text.intercalate_fields, hfields, List.map_cons, List.sum_cons, List.length_nil] at htext
  have hsteps := sum_steps_le (Text.fields (· == '/') cs)
  have hnames := sum_names_le_of_walk hwalk
  rw [List.map_nil, List.sum_nil, steps, hfields, List.filterMap_cons_none rfl] at hnames
  rw [normalize, hns, Place.chars_toPath_absolute, List.length_cons]
  by_cases hnil : ns = []
  · rw [hnil, hcs]
    simp
  · have hne : ns.map String.toList ≠ [] := fun hmap => hnil (List.map_eq_nil_iff.1 hmap)
    have hcanonical := Text.length_intercalate '/' hne
    rw [List.map_map] at hcanonical
    change _ = (ns.map fun n => n.toList.length + 1).sum at hcanonical
    omega

/-! ## How alike two files are -/

/-- **Spellings of one path are equally like** any other file. -/
theorem similarity_congr (h : p.components = q.components) (r : Path) :
    p.similarity r = q.similarity r := by
  have hstem : p.stemWords = q.stemWords := by
    rw [stemWords, stem?, fileName?, h]
    rfl
  have hsibling : p.isSibling r = q.isSibling r := by
    rw [isSibling, isSibling, map_components_parent? p, map_components_parent? q, h]
  rw [similarity, similarity, hstem, hsibling]

theorem similarity_spelled (p r : Path) : p.spelled.similarity r = p.similarity r :=
  similarity_congr (components_spelled p) r

end Path

end CompileCommands
