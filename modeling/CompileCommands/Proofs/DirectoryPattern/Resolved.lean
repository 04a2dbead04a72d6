import CompileCommands.Config.Basic
import CompileCommands.Proofs.DirectoryPattern.Search
import CompileCommands.Proofs.Text.Utf8
import CompileCommands.Proofs.Traversal
import Mathlib.Data.Set.List
/-!
# Patterns as seen from a directory

A relative pattern of a configuration is put behind the directory that it
is seen from, and the whole is read as a pattern. The search for it first
follows the names of the directory (`search_append`), and from there goes
on as the search for the relative pattern alone does in that directory
(`search_map_append`). So everything depends on whether the directory,
read as a pattern, names itself and nothing else: without a glob among its
names it does (`namesItself_of_not_isGlob`), and where it does not, no
pattern can be relied on (`reachesBelow_iff`).
-/

namespace CompileCommands

/-! ## Paths that stand for a directory -/

namespace Host

variable {h : Host} {base : Path} {d : Location}

/-- Whether a canonical path leads to the directory, and what follows it
leads on as from there. With links on the way, this leaves as many to pass
as it takes behind the directory. -/
structure StandsFor (h : Host) (base : Path) (d : Location) : Prop where
  canonical : base.IsCanonical
  locate : h.locate base = .ok (d, .directory)
  onwards : ∀ rest : List (List Char),
    h.tree.follow FileTree.linkLimit [] (Text.fields (· == '/') base.chars ++ rest) =
      h.tree.follow FileTree.linkLimit d rest

/-- **The path of a directory stands for it.** -/
theorem standsFor_toPath (hd : h.tree.HasDirectory d) :
    h.StandsFor (Place.absolute d).toPath d where
  canonical := Path.isCanonical_toPath fun n hn =>
    FileTree.isName_of_validName (FileTree.validName_of_hasDirectory hd n hn)
  locate := locate_toPath_directory hd
  onwards := by
    intro rest
    obtain ⟨k, hfields⟩ := exists_fields_toPath fun n hn =>
      FileTree.isName_of_validName (FileTree.validName_of_hasDirectory hd n hn)
    rw [hfields, List.append_assoc, follow_replicate_nil]
    exact FileTree.follow_down (m := []) hd rest

/-- Behind its names there are the directories behind the directory. -/
theorem StandsFor.exists_names (hbase : h.StandsFor base d) :
    ∃ above, base = (Place.absolute above).toPath ∧ (∀ n ∈ above, Component.IsName n) ∧
      ∀ ns, h.tree.directory? [] (above ++ ns) = h.tree.directory? d ns := by
  obtain ⟨above, rfl, hnames⟩ := hbase.canonical.exists_names
  obtain ⟨k, hfields⟩ := exists_fields_toPath hnames
  have hnul : ∀ n ∈ above, '\x00' ∉ n.toList := by
    intro n hn hin
    obtain ⟨hchars, -⟩ := spot_eq_ok_iff.1 (spot_of_locate hbase.locate)
    have hmem := (nul_mem_chars_iff (Place.steps_toPath_absolute hnames)).2 ⟨n, hn, hin⟩
    rw [List.contains_iff_mem.2 hmem] at hchars
    cases hchars
  refine ⟨above, rfl, hnames, fun ns => Option.ext fun l => ?_⟩
  have honwards := hbase.onwards (ns.map String.toList)
  rw [hfields, List.append_assoc, follow_replicate_nil] at honwards
  rw [FileTree.directory?_eq_some, FileTree.directory?_eq_some, List.map_append, honwards,
    List.forall_mem_append, and_iff_right hnul]

end Host

namespace DirectoryPattern

variable {h : Host} {t : FileTree} {d top : Location} {base p q : Path} {lead : List Component}
variable {pattern n : String} {above ms ns : List String} {nss nss' : List (List String)}
variable {ps qs : List Path}

/-! ## Searching behind a directory -/

/-- The search for names that follow others goes on from what those lead
to. -/
theorem search_append (hne : nss ≠ []) :
    search t top nss (ms ++ ns) = (search t top nss ms).bind fun found =>
      if found = [] then some [] else search t top found ns := by
  induction ms generalizing nss with
  | nil => rw [List.nil_append, search, Option.bind_some, if_neg hne]
  | cons m ms ih =>
    rw [List.cons_append, search, search]
    cases hstep : step? t top nss m with
    | none => rfl
    | some found =>
      cases found with
      | nil => rfl
      | cons x found => exact ih (List.cons_ne_nil x found)

theorem step?_map_append
    (habove : ∀ ns, t.directory? top (above ++ ns) = t.directory? d ns) :
    step? t top (nss.map (above ++ ·)) n = (step? t d nss n).map (List.map (above ++ ·)) := by
  unfold step?
  split
  · split
    · rfl
    · rw [Option.map_some, List.flatMap_map, List.map_flatMap]
      simp only [habove, List.append_assoc, List.map_map]
      rfl
  · have hmap : (nss.map (above ++ ·)).map (· ++ [n]) = (nss.map (· ++ [n])).map (above ++ ·) := by
      rw [List.map_map, List.map_map]
      exact List.map_congr_left fun ms _ => List.append_assoc above ms [n]
    rw [Option.map_some, hmap, List.filter_map]
    refine congrArg (fun kept => some (kept.map (above ++ ·))) (List.filter_congr fun ms _ => ?_)
    rw [Function.comp_apply, habove]

/-- **Behind a directory** the same is found as from it. -/
theorem search_map_append
    (habove : ∀ ns, t.directory? top (above ++ ns) = t.directory? d ns) :
    search t top (nss.map (above ++ ·)) ns = (search t d nss ns).map (List.map (above ++ ·)) := by
  induction ns generalizing nss with
  | nil => rfl
  | cons n ns ih =>
    rw [search, search, step?_map_append habove]
    cases hstep : step? t d nss n with
    | none => rfl
    | some found =>
      cases found with
      | nil => rfl
      | cons x found => exact ih

/-- Whether two searches find the same, in whatever order and however
often. -/
abbrev FindSame : Option (List (List String)) → Option (List (List String)) → Prop :=
  Option.Rel fun xs ys => ∀ ns, ns ∈ xs ↔ ns ∈ ys

theorem findSame_step? (hmem : ∀ ns, ns ∈ nss ↔ ns ∈ nss') :
    FindSame (step? t d nss n) (step? t d nss' n) := by
  unfold step?
  split
  · split
    · exact .none
    · refine .some fun ns => ?_
      simp only [List.mem_flatMap, hmem]
  · refine .some fun ns => ?_
    simp only [List.mem_filter, List.mem_map, hmem]

/-- **What has been reached counts once**, wherever it stands in the
list. -/
theorem findSame_search (hmem : ∀ ns, ns ∈ nss ↔ ns ∈ nss') :
    FindSame (search t d nss ns) (search t d nss' ns) := by
  induction ns generalizing nss nss' with
  | nil => exact .some hmem
  | cons n ns ih =>
    have hstep := findSame_step? (t := t) (d := d) (n := n) hmem
    rw [search, search]
    generalize step? t d nss n = x at hstep ⊢
    generalize step? t d nss' n = y at hstep ⊢
    cases hstep with
    | none => exact .none
    | @some xs ys hxs =>
      cases xs with
      | nil =>
        have hys : ys = [] :=
          List.eq_nil_iff_forall_not_mem.2 fun a ha => List.not_mem_nil ((hxs a).2 ha)
        rw [hys]
        exact .some fun ns => Iff.rfl
      | cons a xs =>
        cases ys with
        | nil => exact absurd ((hxs a).1 (List.mem_cons_self ..)) List.not_mem_nil
        | cons b ys => exact ih hxs

/-! ## The directory as a pattern -/

/-- Whether a directory, read as a pattern, names itself and nothing
else. -/
def NamesItself (h : Host) (base : Path) : Prop :=
  ∃ q, expand h base.text = .ok [q] ∧ q.same base = true

/-- An absolute pattern is searched from the root. -/
theorem expand_absolute_goesAs (hp : p.isAbsolute = true) (hsteps : p.steps = ns.map .name) :
    ∃ x, expand h p.text = x.map sortPaths ∧
      GoesAs h [] [.root] x (search h.tree [] [[]] ns) := by
  obtain ⟨cs, hcs⟩ := Path.isAbsolute_iff.1 hp
  have hne : p.text ≠ "" := fun hnil => List.cons_ne_nil _ _ (hcs.symm.trans (congrArg _ hnil))
  have hstart : h.start? p = some [] := if_pos hp
  obtain ⟨x, hx, hgoes⟩ := expand_goesAs hne hstart hsteps
  have hlead : p.lead.toList = [.root] := by
    rw [Path.lead, hcs]
    rfl
  have hgoes' : GoesAs h [] p.lead.toList x (search h.tree [] [[]] ns) := hgoes
  rw [hlead] at hgoes'
  exact ⟨x, hx, hgoes'⟩

/-- **A directory without a glob among its names names itself.** -/
theorem namesItself_of_not_isGlob (hbase : h.StandsFor base d)
    (hplain : isGlob base.chars = false) : NamesItself h base := by
  obtain ⟨hcomponents, hsteps, habs⟩ := whole_spec base.text
  obtain ⟨above, rfl, hnames, -⟩ := hbase.exists_names
  have hbasesteps := Place.steps_toPath_absolute hnames
  have hbaseabs := Place.isAbsolute_toPath_absolute above
  have hne : (Place.absolute above).toPath.text ≠ "" := by
    intro hnil
    have hchars := Place.chars_toPath_absolute above
    rw [Path.chars, hnil] at hchars
    exact List.cons_ne_nil _ _ hchars.symm
  -- the pattern sets out where the path does, and has its steps
  have hstart : h.start? (whole (Place.absolute above).toPath.text) = some [] :=
    if_pos (habs.trans hbaseabs)
  have hdirectory : h.isDirectory (whole (Place.absolute above).toPath.text) = true := by
    have hbasedirectory : h.isDirectory (Place.absolute above).toPath = true := by
      rw [Host.isDirectory, hbase.locate]
    rw [Host.isDirectory_eq (chars_whole hne) hstart (hsteps.trans hbasesteps)]
    rwa [Host.isDirectory_eq (fun hnil => hne (String.toList_eq_nil_iff.1 hnil)) (if_pos hbaseabs)
      hbasesteps] at hbasedirectory
  exact ⟨_, expand_of_isDirectory (isGlob_trimmed hplain) hdirectory, Path.same_iff.2 hcomponents⟩

theorem namesItself_iff (hp : base.isAbsolute = true) (hsteps : base.steps = above.map .name) :
    NamesItself h base ↔ ∃ found, search h.tree [] [[]] above = some found ∧ found ≠ [] ∧
      ∀ ns ∈ found, ns = above := by
  obtain ⟨x, hx, hgoes⟩ := expand_absolute_goesAs (h := h) hp hsteps
  have hbase : base.components = .root :: above.map .name := by
    rw [Path.components_of_absolute hp, hsteps]
  rw [NamesItself, hx]
  generalize search h.tree [] [[]] above = y at hgoes ⊢
  cases hgoes with
  | failed e =>
    constructor
    · rintro ⟨q, hq, -⟩
      cases hq
    · rintro ⟨found, hfound, -⟩
      cases hfound
  | @reached ps nss hps =>
    have hsingle : (∃ q, sortPaths ps = [q] ∧ q.components = base.components) ↔
        ps ≠ [] ∧ ∀ p ∈ ps, p.components = base.components := exists_sortPaths_eq_singleton
    constructor
    · rintro ⟨q, hq, hsame⟩
      obtain ⟨hne, hall⟩ := hsingle.1 ⟨q, Except.ok.inj hq, Path.same_iff.1 hsame⟩
      refine ⟨nss, rfl, ?_, fun ns hns => ?_⟩
      · rintro rfl
        exact hne (List.forall₂_nil_right_iff.1 hps)
      · obtain ⟨p, hp, hreached⟩ := exists_of_mem_right hps hns
        have hcomponents := hall p hp
        rw [hreached.components, hbase] at hcomponents
        exact List.map_injective_iff.2 (fun _ _ => Component.name.inj) (List.cons.inj hcomponents).2
    · rintro ⟨found, hfound, hne, hall⟩
      obtain rfl := Option.some.inj hfound
      have hsome : ps ≠ [] := by
        rintro rfl
        exact hne (List.forall₂_nil_left_iff.1 hps)
      have hcomponents : ∀ p ∈ ps, p.components = base.components := by
        intro p hp
        obtain ⟨ns, hns, hreached⟩ := exists_of_mem_left hps hp
        rw [hreached.components, hall ns hns, hbase, List.singleton_append]
      obtain ⟨q, hq, hsame⟩ := hsingle.2 ⟨hsome, hcomponents⟩
      exact ⟨q, congrArg Except.ok hq, Path.same_iff.2 hsame⟩

/-- **Behind a directory that names itself** the search finds what it
finds in the directory. -/
theorem NamesItself.findSame (hitself : NamesItself h (Place.absolute above).toPath)
    (habove : ∀ n ∈ above, Component.IsName n)
    (hbehind : ∀ ns, h.tree.directory? [] (above ++ ns) = h.tree.directory? d ns)
    (ns : List String) :
    FindSame (search h.tree [] [[]] (above ++ ns))
      ((search h.tree d [[]] ns).map (List.map (above ++ ·))) := by
  obtain ⟨found, hfound, hne, hall⟩ := (namesItself_iff
    (Place.isAbsolute_toPath_absolute above) (Place.steps_toPath_absolute habove)).1 hitself
  have hmem : ∀ ms, ms ∈ found ↔ ms ∈ ([[]] : List (List String)).map (above ++ ·) := by
    intro ms
    rw [List.map_singleton, List.append_nil, List.mem_singleton]
    obtain ⟨ls, hls⟩ := List.exists_mem_of_ne_nil _ hne
    exact ⟨hall ms, fun heq => heq ▸ hall ls hls ▸ hls⟩
  rw [search_append (List.cons_ne_nil _ _), hfound, Option.bind_some, if_neg hne,
    ← search_map_append hbehind]
  exact findSame_search hmem

/-! ## Patterns below the directory -/

/-- Whether a pattern that is seen from the directory at `base` names what
it names alone in the working directory `d`, each path behind `base`. -/
def ReachesBelow (h : Host) (base : Path) (d : Location) (pattern : String) : Prop :=
  (∃ e e', expand h (ConfigSource.resolve base pattern) = .error e ∧
    expand { h with directory := some d } pattern = .error e') ∨
  ∃ ps qs, expand h (ConfigSource.resolve base pattern) = .ok ps ∧
    expand { h with directory := some d } pattern = .ok qs ∧
    ps.Forall₂ (fun p q => p.same (base.join q) = true) qs

/-- Whether a pattern is relative, not empty, and goes up nowhere. -/
structure GoesDown (pattern : String) : Prop where
  nonempty : pattern ≠ ""
  relative : (⟨pattern⟩ : Path).isAbsolute = false
  down : .parent ∉ (⟨pattern⟩ : Path).components

theorem GoesDown.exists_names (hdown : GoesDown pattern) :
    ∃ ns : List String, (⟨pattern⟩ : Path).steps = ns.map .name := by
  have hnames : ∀ c ∈ (⟨pattern⟩ : Path).steps, c ∈ Set.range Component.name := by
    intro c hc
    have hparent : c ≠ .parent := by
      rintro rfl
      refine hdown.down ?_
      rw [Path.components_eq_lead_append]
      exact List.mem_append_right _ hc
    obtain ⟨piece, -, hpiece⟩ := List.mem_filterMap.1 hc
    cases c with
    | root => exact absurd hpiece (Component.ofPiece?_ne_root piece)
    | current => exact absurd hpiece (Component.ofPiece?_ne_current piece)
    | parent => exact absurd rfl hparent
    | name n => exact ⟨n, rfl⟩
  have hrange : (⟨pattern⟩ : Path).steps ∈ Set.range (List.map Component.name) := by
    rw [Set.range_list_map]
    exact hnames
  obtain ⟨ns, hns⟩ := hrange
  exact ⟨ns, hns.symm⟩

/-- A pattern that is seen from a directory has the names of both. -/
theorem resolve_eq (habove : ∀ n ∈ above, Component.IsName n) (hdown : GoesDown pattern)
    (hsteps : (⟨pattern⟩ : Path).steps = ns.map .name) :
    ConfigSource.resolve (Place.absolute above).toPath pattern =
      (Place.absolute (above ++ ns)).toPath.text := by
  have hplace : ((Place.absolute above).toPath.join ⟨pattern⟩).place =
      .absolute (above ++ ns) := by
    have hbase : Place.here.walk (Place.absolute above).toPath.components = .absolute above :=
      Place.place_toPath habove
    rw [Path.place, Place.walk_components_join, hbase, Place.walk_components, hdown.relative,
      if_neg Bool.false_ne_true, hsteps, Place.walk_names_absolute]
  rw [ConfigSource.resolve, Path.normalize, hplace]

/-- What a relative pattern reaches, put behind the directory, are the
names of both. -/
theorem Reached.components_join {h : Host} (hp : Reached h d lead p ns)
    (hlead : .root ∉ lead) (habove : ∀ n ∈ above, Component.IsName n) :
    ((Place.absolute above).toPath.join p).components = .root :: (above ++ ns).map .name := by
  have hrelative : p.isAbsolute = false := by
    rw [Bool.eq_false_iff]
    intro habs
    have hmem : .root ∈ p.components := by
      rw [Path.components_of_absolute habs]
      exact List.mem_cons_self ..
    rw [hp.components] at hmem
    rcases List.mem_append.1 hmem with hmem | hmem
    · exact hlead hmem
    · obtain ⟨n, -, hn⟩ := List.mem_map.1 hmem
      cases hn
  have habs : ((Place.absolute above).toPath.join p).isAbsolute = true := by
    rw [Path.isAbsolute_join, Place.isAbsolute_toPath_absolute, Bool.true_or]
  rw [Path.components_of_absolute habs, Path.steps_join hrelative,
    Place.steps_toPath_absolute habove, hp.steps, List.map_append]

/-- **The same names in order** are the same paths in order, behind the
directory and in it. -/
theorem forall₂_sortPaths_join {h' : Host} (habove : ∀ n ∈ above, Component.IsName n)
    (hlead : .root ∉ lead) (hps : ps.Forall₂ (Reached h [] [.root]) nss)
    (hqs : qs.Forall₂ (Reached h' d lead) nss')
    (hmem : ∀ ns, ns ∈ nss ↔ ns ∈ nss'.map (above ++ ·)) :
    (sortPaths ps).Forall₂ (fun p q => p.same ((Place.absolute above).toPath.join q) = true)
      (sortPaths qs) := by
  have hjoin : ∀ q ∈ qs, ∃ ns ∈ nss', q.components = lead ++ ns.map .name ∧
      ((Place.absolute above).toPath.join q).components =
        (.root :: above.map .name) ++ ns.map .name := by
    intro q hq
    obtain ⟨ns, hns, hreached⟩ := exists_of_mem_left hqs hq
    refine ⟨ns, hns, hreached.components, ?_⟩
    rw [hreached.components_join hlead habove, List.map_append]
    rfl
  have hsub : sortPaths qs ⊆ qs := (sortPaths_spec qs).2.1
  -- joining keeps the order, as all begin alike
  have hordered : ((sortPaths qs).map ((Place.absolute above).toPath.join ·)).Pairwise
      Path.Precedes := by
    rw [List.pairwise_map]
    refine (pairwise_sortPaths qs).imp_of_mem fun hp hq hpq => ?_
    obtain ⟨ms, -, hpcomponents, hpjoin⟩ := hjoin _ (hsub hp)
    obtain ⟨ns, -, hqcomponents, hqjoin⟩ := hjoin _ (hsub hq)
    rw [Path.precedes_iff, hpcomponents, hqcomponents, Component.before_append] at hpq
    rw [Path.precedes_iff, hpjoin, hqjoin, Component.before_append]
    exact hpq
  have hsame := Path.forall₂_same_of_pairwise (pairwise_sortPaths ps) hordered fun cs => ?_
  · rwa [List.forall₂_map_right_iff] at hsame
  · rw [mem_map_components_sortPaths, List.map_map, List.mem_map, List.mem_map]
    constructor
    · rintro ⟨p, hp, rfl⟩
      obtain ⟨ms, hms, hreached⟩ := exists_of_mem_left hps hp
      obtain ⟨ns, hns, rfl⟩ := List.mem_map.1 ((hmem ms).1 hms)
      obtain ⟨q, hq, hqreached⟩ := exists_of_mem_right hqs hns
      -- the spelling of `q` that has been kept
      obtain ⟨r, hr, hrq⟩ := List.mem_map.1
        (mem_map_components_sortPaths.2 (List.mem_map_of_mem (f := Path.components) hq))
      obtain ⟨ns', -, hrcomponents, hrjoin⟩ := hjoin r (hsub hr)
      rw [hrcomponents, hqreached.components] at hrq
      refine ⟨r, hr, ?_⟩
      rw [Function.comp_apply, hrjoin, List.append_cancel_left hrq, hreached.components,
        List.map_append]
      rfl
    · rintro ⟨r, hr, rfl⟩
      obtain ⟨ns, hns, -, hrjoin⟩ := hjoin r (hsub hr)
      obtain ⟨p, hp, hreached⟩ :=
        exists_of_mem_right hps ((hmem (above ++ ns)).2 (List.mem_map_of_mem hns))
      refine ⟨p, hp, ?_⟩
      rw [Function.comp_apply, hrjoin, hreached.components, List.map_append]
      rfl

/-- **Where the directory names itself**, patterns reach below it as they
do in it. -/
theorem NamesItself.reachesBelow (hitself : NamesItself h base) (hbase : h.StandsFor base d)
    (hdown : GoesDown pattern) : ReachesBelow h base d pattern := by
  obtain ⟨above, rfl, habove, hbehind⟩ := hbase.exists_names
  obtain ⟨ns, hsteps⟩ := hdown.exists_names
  have hboth : ∀ n ∈ above ++ ns, Component.IsName n :=
    List.forall_mem_append.2 ⟨habove, Path.isName_of_steps hsteps⟩
  have hresolved := resolve_eq habove hdown hsteps
  obtain ⟨x, hx, hxgoes⟩ := expand_absolute_goesAs (h := h)
    (Place.isAbsolute_toPath_absolute (above ++ ns)) (Place.steps_toPath_absolute hboth)
  have hstart : ({ h with directory := some d } : Host).start? ⟨pattern⟩ = some d := by
    rw [Host.start?, hdown.relative]
    rfl
  obtain ⟨y, hy, hygoes⟩ := expand_goesAs (h := { h with directory := some d })
    hdown.nonempty hstart hsteps
  have hlead : .root ∉ (⟨pattern⟩ : Path).lead.toList := by
    obtain ⟨_, -, hlead, -⟩ := Path.lead_pieces_of_relative hdown.relative
    rw [hlead]
    split
    · decide
    · decide
  have hfind := hitself.findSame habove hbehind ns
  rw [ReachesBelow, hresolved, hx, hy]
  change GoesAs _ _ _ y (search h.tree d [[]] ns) at hygoes
  generalize search h.tree [] [[]] (above ++ ns) = u at hxgoes hfind
  generalize search h.tree d [[]] ns = v at hygoes hfind
  cases hygoes with
  | failed e' =>
    cases hfind
    cases hxgoes with
    | failed e => exact .inl ⟨e, e', rfl, rfl⟩
  | @reached qs nss' hqs =>
    cases hfind with
    | some hmem =>
      cases hxgoes with
      | @reached ps nss hps =>
        exact .inr ⟨_, _, rfl, rfl, forall₂_sortPaths_join habove hlead hps hqs hmem⟩

/-- **The directory itself** is what `.` names in it. -/
theorem namesItself_of_reachesBelow (hbase : h.StandsFor base d)
    (hbelow : ReachesBelow h base d ".") : NamesItself h base := by
  have hsteps : (⟨"."⟩ : Path).steps = ([] : List String).map .name := by decide
  have hexpand : expand { h with directory := some d } "." = .ok [⟨"."⟩] := by
    have hdirectory : ({ h with directory := some d } : Host).isDirectory ⟨"."⟩ = true := by
      rw [Host.isDirectory_eq (by decide) rfl hsteps, FileTree.directory?_nil]
      rfl
    exact expand_of_isDirectory (by decide) hdirectory
  obtain ⟨above, rfl, habove, -⟩ := hbase.exists_names
  have hdown : GoesDown "." := ⟨by decide, by decide, by decide⟩
  have hresolved : ConfigSource.resolve (Place.absolute above).toPath "." =
      (Place.absolute above).toPath.text := by
    rw [resolve_eq habove hdown hsteps, List.append_nil]
  have hjoin : ((Place.absolute above).toPath.join ⟨"."⟩).components =
      (Place.absolute above).toPath.components := by
    have hbaseabs := Place.isAbsolute_toPath_absolute above
    have hjoinabs : ((Place.absolute above).toPath.join ⟨"."⟩).isAbsolute = true := by
      rw [Path.isAbsolute_join, hbaseabs, Bool.true_or]
    rw [Path.components_of_absolute hjoinabs, Path.components_of_absolute hbaseabs,
      Path.steps_join (by decide), hsteps, List.map_nil, List.append_nil]
  rw [ReachesBelow, hresolved, hexpand] at hbelow
  rcases hbelow with ⟨e, e', -, he'⟩ | ⟨ps, qs, hps, hqs, hsame⟩
  · cases he'
  · obtain rfl := Except.ok.inj hqs
    cases hsame with
    | cons hp hrest =>
      cases hrest
      exact ⟨_, hps, Path.same_iff.2 ((Path.same_iff.1 hp).trans hjoin)⟩

/-- **A pattern that is seen from a directory reaches below it** exactly
if the directory, read as a pattern, names itself: then all patterns that
go up nowhere do, and otherwise not even `.` does. A directory without a
glob among its names does name itself. -/
theorem reachesBelow_iff (hbase : h.StandsFor base d) :
    ((∀ pattern, GoesDown pattern → ReachesBelow h base d pattern) ↔ NamesItself h base) ∧
      (isGlob base.chars = false → NamesItself h base) := by
  refine ⟨⟨fun hall => ?_, fun hitself pattern => ?_⟩, namesItself_of_not_isGlob hbase⟩
  · exact namesItself_of_reachesBelow hbase (hall "." ⟨by decide, by decide, by decide⟩)
  · exact hitself.reachesBelow hbase

/-! ## A directory with brackets in its name -/

namespace Bracketed

/-- The name of one directory, read as a glob, is that of the other. -/
def tree : FileTree where
  entries := [(["a[1]"], .directory), (["a[1]", "build"], .directory),
    (["a1"], .directory), (["a1", "build"], .directory)]
  distinct := by decide
  proper := by decide
  closed := by simp

def host : Host := ⟨tree, some ["a[1]"], none, none, none⟩

/-- What the name is read as. -/
def glob : Glob := .both (.atom (.literal 'a')) (.atom (.oneOf false [('1', '1')]))

theorem standsFor_bracketed : host.StandsFor ⟨"/a[1]"⟩ ["a[1]"] :=
  Host.standsFor_toPath (d := ["a[1]"]) (by decide)

theorem standsFor_plain : host.StandsFor ⟨"/a1"⟩ ["a1"] :=
  Host.standsFor_toPath (d := ["a1"]) (by decide)

theorem goesDown_build : GoesDown "build" := ⟨by decide, by decide, by decide⟩

theorem takes_glob : takes "a[1]" glob "a1" = true ∧ takes "a[1]" glob "a[1]" = false := by
  rw [takes, takes, Glob.isMatch, Glob.isMatch, Text.toList_toUTF8, Text.toList_toUTF8]
  decide

/-- The search ends up in the other directory. -/
theorem search_build : search tree [] [[]] ["a[1]", "build"] = some [["a1", "build"]] := by
  have hglob : Glob.ofText "a[1]" = .ok glob := rfl
  have hnames : tree.names [] = ["a[1]", "a1"] := by decide
  have hdirectory : tree.directory? [] ["a1"] = some ["a1"] :=
    FileTree.directory?_of_hasDirectory [] ["a1"] (by decide)
  have hbuild : tree.directory? [] ["a1", "build"] = some ["a1", "build"] :=
    FileTree.directory?_of_hasDirectory [] ["a1", "build"] (by decide)
  obtain ⟨htaken, hskipped⟩ := takes_glob
  have hfirst : step? tree [] [[]] "a[1]" = some [["a1"]] := by
    rw [step?, if_pos (by decide), hglob]
    simp [FileTree.directory?_nil, hnames, htaken, hskipped, hdirectory]
  have hsecond : step? tree [] [["a1"]] "build" = some [["a1", "build"]] := by
    rw [step?, if_neg (by decide)]
    simp [hbuild]
  rw [search, hfirst]
  change search tree [] [["a1"]] ["build"] = _
  rw [search, hsecond]
  rfl

theorem expand_resolved : ∃ p, expand host (ConfigSource.resolve ⟨"/a[1]"⟩ "build") = .ok [p] ∧
    p.same ⟨"/a1/build"⟩ = true := by
  have hresolved : ConfigSource.resolve ⟨"/a[1]"⟩ "build" = "/a[1]/build" := by decide
  have hsteps : (⟨"/a[1]/build"⟩ : Path).steps = ["a[1]", "build"].map .name := by decide
  obtain ⟨x, hx, hgoes⟩ := expand_absolute_goesAs (h := host) (by decide) hsteps
  change GoesAs _ _ _ x (search tree [] [[]] ["a[1]", "build"]) at hgoes
  rw [search_build] at hgoes
  rw [hresolved]
  cases hgoes with
  | reached hps =>
    cases hps with
    | @cons p _ _ _ hreached hrest =>
      cases hrest
      refine ⟨p, hx.trans (congrArg Except.ok (sortPaths_singleton p)), Path.same_iff.2 ?_⟩
      rw [hreached.components]
      decide

theorem expand_build : expand host "build" = .ok [⟨"build"⟩] := by
  have hsteps : (⟨"build"⟩ : Path).steps = ["build"].map .name := by decide
  have hbelow : tree.directory? ["a[1]"] ["build"] = some ["a[1]", "build"] :=
    FileTree.directory?_of_hasDirectory ["a[1]"] ["build"] (by decide)
  have hdirectory : host.isDirectory ⟨"build"⟩ = true := by
    rw [Host.isDirectory_eq (d := ["a[1]"]) (by decide) rfl hsteps]
    exact Option.isSome_iff_exists.2 ⟨_, hbelow⟩
  exact expand_of_isDirectory (by decide) hdirectory

end Bracketed

/-- Below a directory with a plain name there is what the pattern names. -/
theorem reachesBelow_iff_plain :
    Bracketed.host.StandsFor ⟨"/a1"⟩ ["a1"] ∧ GoesDown "build" ∧
      ReachesBelow Bracketed.host ⟨"/a1"⟩ ["a1"] "build" := by
  obtain ⟨hiff, hplain⟩ := reachesBelow_iff Bracketed.standsFor_plain
  exact ⟨Bracketed.standsFor_plain, Bracketed.goesDown_build,
    hiff.2 (hplain (by decide)) "build" Bracketed.goesDown_build⟩

/-- **Below a directory with brackets in its name**, a pattern without a
glob names a directory elsewhere. -/
theorem not_reachesBelow_bracketed :
    Bracketed.host.StandsFor ⟨"/a[1]"⟩ ["a[1]"] ∧ GoesDown "build" ∧
      (∃ p, expand Bracketed.host (ConfigSource.resolve ⟨"/a[1]"⟩ "build") = .ok [p] ∧
        p.same ⟨"/a1/build"⟩ = true) ∧
      expand { Bracketed.host with directory := some ["a[1]"] } "build" = .ok [⟨"build"⟩] ∧
      ¬ ReachesBelow Bracketed.host ⟨"/a[1]"⟩ ["a[1]"] "build" := by
  refine ⟨Bracketed.standsFor_bracketed, Bracketed.goesDown_build, Bracketed.expand_resolved,
    Bracketed.expand_build, ?_⟩
  obtain ⟨p, hp, hsame⟩ := Bracketed.expand_resolved
  have hbuild : expand { Bracketed.host with directory := some ["a[1]"] } "build" =
      .ok [⟨"build"⟩] := Bracketed.expand_build
  rw [ReachesBelow, hp, hbuild]
  rintro (⟨e, e', he, -⟩ | ⟨ps, qs, hps, hqs, hjoined⟩)
  · cases he
  · obtain rfl := Except.ok.inj hps
    obtain rfl := Except.ok.inj hqs
    cases hjoined with
    | cons hjoin hrest =>
      have hboth := (Path.same_iff.1 hsame).symm.trans (Path.same_iff.1 hjoin)
      revert hboth
      decide

end DirectoryPattern

end CompileCommands
