import CompileCommands.Proofs.DirectoryPattern.Expand
import CompileCommands.Proofs.Host.Directories
/-!
# Following a pattern by names

What a pattern leads to depends on the file tree, the directory where it
sets out and its names (`search`); the host and the way a path has been
put together do not come into it (`follow_goesAs`). So whatever holds of
the search holds of an expansion, also of a pattern without a glob, which
is not followed at all (`expand_goesAs`).
-/

namespace CompileCommands

theorem FileTree.directory?_nil (t : FileTree) (dir : Location) :
    t.directory? dir [] = some dir :=
  directory?_eq_some.2 ⟨fun _ hn => absurd hn List.not_mem_nil, follow_nil⟩

/-- Names that lead to a directory pass directories. -/
theorem FileTree.isSome_directory?_of_append {t : FileTree} {dir : Location} {ms ns : List String}
    (hdir : (t.directory? dir (ms ++ ns)).isSome = true) :
    (t.directory? dir ms).isSome = true := by
  obtain ⟨l, hl⟩ := Option.isSome_iff_exists.1 hdir
  obtain ⟨hnul, hfollow⟩ := directory?_eq_some.1 hl
  rw [List.map_append] at hfollow
  obtain ⟨m, -, hm, -⟩ := exists_directory_of_append hfollow
  exact Option.isSome_iff_exists.2
    ⟨m, directory?_eq_some.2 ⟨fun n hn => hnul n (List.mem_append_left _ hn), hm⟩⟩

namespace DirectoryPattern

variable {h : Host} {t : FileTree} {dir l : Location} {lead : List Component} {p : Path}
variable {pattern n : String} {ms ns : List String} {nss : List (List String)} {ps : List Path}

/-! ## The search -/

/-- What a name of the pattern leads to from what has been reached so far;
nothing if it is no glob but has to be one. -/
def step? (t : FileTree) (dir : Location) (nss : List (List String)) (n : String) :
    Option (List (List String)) :=
  if isGlob n.toList then
    match Glob.ofText n with
    | .error _ => none
    | .ok g => some (nss.flatMap fun ns =>
        ((((t.directory? dir ns).map t.names).getD []).filter fun m =>
          takes n g m && (t.directory? dir (ns ++ [m])).isSome).map fun m => ns ++ [m])
  else some ((nss.map fun ns => ns ++ [n]).filter fun ns => (t.directory? dir ns).isSome)

/-- What the names of the pattern lead to, as names below the directory
where it sets out. -/
def search (t : FileTree) (dir : Location) :
    List (List String) → List String → Option (List (List String))
  | nss, [] => some nss
  | nss, n :: ns =>
    match step? t dir nss n with
    | none => none
    | some [] => some []
    | some found => search t dir found ns

/-- Names without a glob lead to one directory at most. -/
theorem search_of_not_isGlob (hplain : ∀ n ∈ ns, isGlob n.toList = false)
    (hms : (t.directory? dir ms).isSome = true) :
    search t dir [ms] ns =
      some (if (t.directory? dir (ms ++ ns)).isSome then [ms ++ ns] else []) := by
  induction ns generalizing ms with
  | nil => rw [List.append_nil, if_pos hms, search]
  | cons n ns ih =>
    obtain ⟨hn, hplain⟩ := List.forall_mem_cons.1 hplain
    have hstep : step? t dir [ms] n =
        some (if (t.directory? dir (ms ++ [n])).isSome then [ms ++ [n]] else []) := by
      rw [step?, if_neg (by rw [hn]; exact Bool.false_ne_true), List.map_singleton,
        List.filter_singleton, Bool.cond_eq_ite]
    have hcons : ms ++ n :: ns = ms ++ [n] ++ ns := by simp
    rw [search, hstep, hcons]
    by_cases hnext : (t.directory? dir (ms ++ [n])).isSome = true
    · rw [if_pos hnext]
      exact ih hplain hnext
    · rw [if_neg hnext, if_neg fun hall => hnext (FileTree.isSome_directory?_of_append hall)]

/-! ## Paths that are reached -/

/-- Whether a path has been reached along the names, from the directory
and under the given beginning. -/
structure Reached (h : Host) (dir : Location) (lead : List Component) (p : Path)
    (ns : List String) : Prop where
  start : h.start? p = some dir
  steps : p.steps = ns.map .name
  components : p.components = lead ++ ns.map .name

/-- The host knows the path under the same start and steps. -/
theorem Reached.onHost (hp : Reached h dir lead p ns) :
    h.start? (onHost p) = some dir ∧ (onHost p).steps = ns.map .name := by
  rw [DirectoryPattern.onHost]
  split
  · rename_i hempty
    have hnil : p = ⟨""⟩ := by
      rw [← String.toList_eq_nil_iff.1 (List.isEmpty_iff.1 hempty)]
    rw [← hp.start, ← hp.steps, hnil]
    exact ⟨rfl, rfl⟩
  · exact ⟨hp.start, hp.steps⟩

theorem Reached.join (hp : Reached h dir lead p ns) (hn : Component.IsName n) :
    Reached h dir lead (p.join ⟨n⟩) (ns ++ [n]) where
  start := (Host.start?_join_name hn).trans hp.start
  steps := by rw [Path.steps_join_name hn, hp.steps, List.map_append, List.map_singleton]
  components := by
    rw [Path.components_join_name hn, hp.components, List.map_append, List.map_singleton,
      List.append_assoc]

theorem Reached.isDirectory (hp : Reached h dir lead p ns) :
    h.isDirectory (DirectoryPattern.onHost p) = (h.tree.directory? dir ns).isSome :=
  Host.isDirectory_eq (chars_onHost p) hp.onHost.1 hp.onHost.2

theorem Reached.list (hp : Reached h dir lead p ns) :
    h.list (DirectoryPattern.onHost p) = ((h.tree.directory? dir ns).map h.tree.names).getD [] :=
  Host.list_eq (chars_onHost p) hp.onHost.1 hp.onHost.2

theorem Reached.isDirectory_child (hp : Reached h dir lead p ns) (hn : Component.IsName n) :
    h.isDirectory ((DirectoryPattern.onHost p).join ⟨n⟩) =
      (h.tree.directory? dir (ns ++ [n])).isSome := by
  refine Host.isDirectory_eq ?_ ((Host.start?_join_name hn).trans hp.onHost.1) ?_
  · intro hnil
    have hsteps := Path.steps_join_name hn (DirectoryPattern.onHost p)
    rw [Path.steps, hnil] at hsteps
    exact absurd hsteps.symm (List.concat_ne_nil _ _)
  · rw [Path.steps_join_name hn, hp.onHost.2, List.map_append, List.map_singleton]

/-- **The children that a glob takes** are reached along their names. -/
theorem Reached.children (hp : Reached h dir lead p ns) (n : String) (g : Glob) :
    (children h n g p).Forall₂ (Reached h dir lead)
      (((((h.tree.directory? dir ns).map h.tree.names).getD []).filter fun m =>
        takes n g m && (h.tree.directory? dir (ns ++ [m])).isSome).map fun m => ns ++ [m]) := by
  have hnames : ∀ m ∈ h.list (DirectoryPattern.onHost p), Component.IsName m := by
    intro m hm
    rw [hp.list] at hm
    cases hdir : h.tree.directory? dir ns with
    | none =>
      rw [hdir] at hm
      exact absurd hm List.not_mem_nil
    | some l =>
      rw [hdir] at hm
      exact FileTree.isName_of_validName (FileTree.validName_of_mem_names hm)
  have hfilter : (h.list (DirectoryPattern.onHost p)).filter (fun m =>
      takes n g m && h.isDirectory ((DirectoryPattern.onHost p).join ⟨m⟩)) =
        (h.list (DirectoryPattern.onHost p)).filter fun m =>
          takes n g m && (h.tree.directory? dir (ns ++ [m])).isSome := by
    refine List.filter_congr fun m hm => ?_
    rw [hp.isDirectory_child (hnames m hm)]
  rw [DirectoryPattern.children, hfilter, ← hp.list, List.forall₂_map_left_iff,
    List.forall₂_map_right_iff, List.forall₂_same]
  intro m hm
  exact hp.join (hnames m (List.mem_filter.1 hm).1)

/-! ## Following and searching -/

/-- Whether an attempt goes as the search does: both fail, or each path is
reached along the names found in its place. -/
inductive GoesAs (h : Host) (dir : Location) (lead : List Component) :
    Except DbError (List Path) → Option (List (List String)) → Prop
  | failed (e : DbError) : GoesAs h dir lead (.error e) none
  | reached {ps : List Path} {nss : List (List String)}
      (hps : ps.Forall₂ (Reached h dir lead) nss) :
      GoesAs h dir lead (.ok ps) (some nss)

theorem advance_goesAs (hps : ps.Forall₂ (Reached h dir lead) nss) (hn : Component.IsName n) :
    GoesAs h dir lead (advance h pattern ps (.name n)) (step? h.tree dir nss n) := by
  rw [advance, step?]
  by_cases hglob : isGlob n.toList = true
  · simp only [if_pos hglob]
    cases hg : Glob.ofText n with
    | error e => exact .failed _
    | ok g => exact .reached (List.rel_flatMap hps fun _ _ hp => hp.children n g)
  · simp only [if_neg hglob]
    refine .reached (List.rel_filter ?_ (List.rel_map (fun _ _ hp => hp.join hn) hps))
    intro p ns hp
    change h.isDirectory (onHost p) = true ↔ _
    rw [hp.isDirectory]

/-- **A pattern is followed as its names are searched.** -/
theorem follow_goesAs (hps : ps.Forall₂ (Reached h dir lead) nss)
    (hns : ∀ n ∈ ns, Component.IsName n) :
    GoesAs h dir lead (follow h pattern ps (ns.map .name)) (search h.tree dir nss ns) := by
  induction ns generalizing ps nss with
  | nil => exact .reached hps
  | cons n ns ih =>
    obtain ⟨hn, hns⟩ := List.forall_mem_cons.1 hns
    have hstep : GoesAs h dir lead (advance h pattern ps (.name n)) (step? h.tree dir nss n) :=
      advance_goesAs hps hn
    rw [List.map_cons, follow, search]
    generalize advance h pattern ps (.name n) = x at hstep ⊢
    generalize step? h.tree dir nss n = y at hstep ⊢
    cases hstep with
    | failed e => exact .failed e
    | reached hfound =>
      cases hfound with
      | nil => exact .reached .nil
      | cons hp hfound => exact ih (.cons hp hfound) hns

/-! ## Expanding and searching -/

/-- Where a pattern sets out, the host knows a directory. -/
theorem follow_cons_lead {c : Component} {q : Path} (hc : ∀ n, c ≠ .name n)
    (hq : Path.empty.join ⟨c.text⟩ = q) (hreached : Reached h dir lead q []) (cs : List Component) :
    follow h pattern [Path.empty] (c :: cs) = follow h pattern [q] cs := by
  have hdirectory : h.isDirectory (onHost q) = true := by
    rw [hreached.isDirectory, FileTree.directory?_nil]
    rfl
  have hadvance : advance h pattern [Path.empty] c = .ok [q] := by
    unfold advance
    rw [List.map_singleton, hq, List.filter_singleton, hdirectory]
    cases c with
    | name n => exact absurd rfl (hc n)
    | _ => rfl
  rw [follow, hadvance]

theorem follow_lead_goesAs {q : Path} (hstart : h.start? q = some dir)
    (hns : ∀ n ∈ ns, Component.IsName n) :
    GoesAs h dir q.lead.toList
      (follow h pattern [Path.empty] (q.lead.toList ++ ns.map .name))
      (search h.tree dir [[]] ns) := by
  cases habs : q.isAbsolute with
  | true =>
    rw [Host.start?, if_pos habs] at hstart
    obtain rfl := Option.some.inj hstart
    have hreached : Reached h [] [.root] ⟨"/"⟩ [] := ⟨rfl, rfl, rfl⟩
    have hlead : q.lead.toList = [.root] := by
      obtain ⟨cs, hcs⟩ := Path.isAbsolute_iff.1 habs
      rw [Path.lead, hcs]
      rfl
    rw [hlead, List.singleton_append, follow_cons_lead (fun n hn => by cases hn) rfl hreached]
    exact follow_goesAs (.cons hreached .nil) hns
  | false =>
    rw [Host.start?, if_neg (by rw [habs]; exact Bool.false_ne_true)] at hstart
    obtain ⟨_, -, hlead, -⟩ := Path.lead_pieces_of_relative habs
    rw [hlead]
    split
    · have hreached : Reached h dir [.current] ⟨"."⟩ [] := ⟨hstart, rfl, rfl⟩
      rw [Option.toList_some, List.singleton_append,
        follow_cons_lead (fun n hn => by cases hn) rfl hreached]
      exact follow_goesAs (.cons hreached .nil) hns
    · have hreached : Reached h dir [] Path.empty [] := ⟨hstart, rfl, rfl⟩
      exact follow_goesAs (.cons hreached .nil) hns

/-- **A pattern expands to what its names lead to**, sorted, whether it has
a glob or not. -/
theorem expand_goesAs (hne : pattern ≠ "") (hstart : h.start? ⟨pattern⟩ = some dir)
    (hsteps : (⟨pattern⟩ : Path).steps = ns.map .name) :
    ∃ x, expand h pattern = x.map sortPaths ∧
      GoesAs h dir (⟨pattern⟩ : Path).lead.toList x (search h.tree dir [[]] ns) := by
  have hns := Path.isName_of_steps hsteps
  have hcomponents : (⟨pattern⟩ : Path).components =
      (⟨pattern⟩ : Path).lead.toList ++ ns.map .name := by
    rw [Path.components_eq_lead_append, hsteps]
  obtain ⟨hwhole, hwholesteps, hwholeabs⟩ := whole_spec pattern
  cases hglob : isGlob (trimmed pattern) with
  | true =>
    rw [expand_of_isGlob hglob, hwhole, hcomponents]
    exact ⟨_, rfl, follow_lead_goesAs hstart hns⟩
  | false =>
    -- the pattern is looked up as a whole, which is what its names lead to
    have hstart' : h.start? (whole pattern) = some dir := by
      rw [Host.start?, hwholeabs]
      exact hstart
    have hreached : Reached h dir (⟨pattern⟩ : Path).lead.toList (whole pattern) ns :=
      ⟨hstart', hwholesteps.trans hsteps, hwhole.trans hcomponents⟩
    have hdirectory := Host.isDirectory_eq (chars_whole hne) hstart' (hwholesteps.trans hsteps)
    have hplain : ∀ n ∈ ns, isGlob n.toList = false := by
      intro n hn
      have hstep : .name n ∈ (whole pattern).steps := by
        rw [hwholesteps, hsteps]
        exact List.mem_map_of_mem hn
      rw [isGlob, List.any_eq_false]
      intro c hc
      have hmem : c ∈ trimmed pattern := by
        rw [← String.toList_ofList (l := trimmed pattern)]
        exact Path.mem_chars_of_mem_steps hstep hc
      exact List.any_eq_false.1 hglob c hmem
    have hsearch : search h.tree dir [[]] ns =
        some (if (h.tree.directory? dir ([] ++ ns)).isSome then [[] ++ ns] else []) :=
      search_of_not_isGlob hplain (by rw [FileTree.directory?_nil]; rfl)
    refine ⟨.ok (if h.isDirectory (whole pattern) then [whole pattern] else []), ?_, ?_⟩
    · rw [expand_of_not_isGlob hglob]
      refine congrArg _ ?_
      split
      · exact (sortPaths_singleton _).symm
      · exact sortPaths_nil.symm
    · rw [hsearch, hdirectory, List.nil_append]
      split
      · exact .reached (.cons hreached .nil)
      · exact .reached .nil

end DirectoryPattern

end CompileCommands
