import CompileCommands.Project.Files
import CompileCommands.Proofs.Host.Normalized
import CompileCommands.Proofs.Path.Order
import CompileCommands.Proofs.Path.Relative
/-!
# Which files are listed

A scan lists the files of its groups among what the roots stand for: a
regular file given as a root, and what lies below a directory given as a
root, other than directories. It lists each once and in strict order,
however the roots overlap, and depends on the set of the roots alone
(`projectFiles_eq_ok_iff`).
-/

namespace CompileCommands

namespace Host

variable {h : Host} {groups : List FileGroup} {roots : List Path} {root p : Path} {e : Entry}
variable {files found : List Path}

/-- Whether the path leads from a directory down to an entry. The names
below the directory are those of the tree, so no link below it is
followed. -/
def StandsBelow (h : Host) (root p : Path) (e : Entry) : Prop :=
  ∃ l ns, h.locate root = .ok (l, .directory) ∧ ns ≠ [] ∧ h.tree.entry? (l ++ ns) = some e ∧
    p = root.joinAll (ns.map .name)

/-- Whether the path is a regular file at the root, or anything but a
directory below it. -/
def StandsAt (h : Host) (root p : Path) : Prop :=
  (p = root ∧ h.isFile root = true) ∨ ∃ e, e ≠ .directory ∧ h.StandsBelow root p e

/-- Whether the path is a file of the groups at one of the roots. -/
def IsProjectFile (h : Host) (groups : List FileGroup) (roots : List Path) (p : Path) : Prop :=
  p.isAmong groups = true ∧ ∃ r ∈ roots, h.StandsAt (h.logicalPath r) p

/-! ## One root -/

theorem mem_walk : (p, e) ∈ h.walk root ↔ h.StandsBelow root p e := by
  unfold walk StandsBelow
  split
  · rename_i l hlocate
    simp only [FileTree.below, List.mem_map, List.mem_filter, Bool.and_eq_true,
      List.isPrefixOf_iff_prefix, bne_iff_ne]
    constructor
    · rintro ⟨⟨k, entry⟩, ⟨hmem, ⟨ns, rfl⟩, hne⟩, hp⟩
      obtain ⟨rfl, rfl⟩ := Prod.mk.inj hp
      refine ⟨l, ns, hlocate, fun hnil => hne ?_, FileTree.entry?_of_mem_entries hmem, ?_⟩
      · rw [hnil, List.append_nil]
      · rw [List.drop_left]
    · rintro ⟨l', ns, hlocate', hns, hentry, rfl⟩
      obtain ⟨rfl, -⟩ := Prod.mk.inj (Except.ok.inj (hlocate.symm.trans hlocate'))
      have hne : l ++ ns ≠ l :=
        fun heq => hns (List.append_cancel_left (heq.trans l.append_nil.symm))
      have hmem := FileTree.mem_entries_of_entry?
        (fun hnil => hns (List.append_eq_nil_iff.1 hnil).2) hentry
      exact ⟨(l ++ ns, e), ⟨hmem, ⟨ns, rfl⟩, hne⟩, by rw [List.drop_left]⟩
  · rename_i hnot
    constructor
    · exact fun hmem => absurd hmem List.not_mem_nil
    · rintro ⟨l, ns, hlocate, -⟩
      exact absurd hlocate (hnot l)

theorem mem_filesBelow :
    p ∈ h.filesBelow groups root ↔
      p.isAmong groups = true ∧ ∃ e, e ≠ .directory ∧ h.StandsBelow root p e := by
  unfold filesBelow
  rw [List.mem_filterMap]
  constructor
  · rintro ⟨⟨q, e⟩, hmem, hq⟩
    cases e with
    | directory => cases hq
    | file c =>
      obtain ⟨hamong, hq⟩ := Option.ite_none_right_eq_some.1 hq
      obtain rfl := Option.some.inj hq
      exact ⟨hamong, _, Entry.noConfusion, mem_walk.1 hmem⟩
    | link t =>
      obtain ⟨hamong, hq⟩ := Option.ite_none_right_eq_some.1 hq
      obtain rfl := Option.some.inj hq
      exact ⟨hamong, _, Entry.noConfusion, mem_walk.1 hmem⟩
  · rintro ⟨hamong, e, hne, hbelow⟩
    refine ⟨(p, e), mem_walk.2 hbelow, ?_⟩
    cases e with
    | directory => exact absurd rfl hne
    | file c => exact if_pos hamong
    | link t => exact if_pos hamong

theorem StandsBelow.isDirectory (hbelow : h.StandsBelow root p e) : h.isDirectory root = true := by
  obtain ⟨l, ns, hlocate, -⟩ := hbelow
  exact isDirectory_iff.2 ⟨l, hlocate⟩

theorem isFile_of_isDirectory (hdirectory : h.isDirectory p = true) : h.isFile p = false := by
  obtain ⟨l, hlocate⟩ := isDirectory_iff.1 hdirectory
  rw [isFile, hlocate]

/-- **The files at a root** are those of the groups that stand there. -/
theorem mem_filesAt (hfiles : h.filesAt groups root = some files) :
    p ∈ files ↔ p.isAmong groups = true ∧ h.StandsAt root p := by
  unfold filesAt at hfiles
  unfold StandsAt
  split at hfiles
  · rename_i hdirectory
    obtain rfl := Option.some.inj hfiles
    have hfile := isFile_of_isDirectory hdirectory
    rw [mem_filesBelow]
    refine and_congr_right fun _ => ⟨.inr, fun hstands => hstands.resolve_left ?_⟩
    rintro ⟨-, htrue⟩
    exact Bool.false_ne_true (hfile.symm.trans htrue)
  · rename_i hdirectory
    -- without a directory, only the root itself can stand there
    have hnone : ¬ ∃ e, e ≠ .directory ∧ h.StandsBelow root p e :=
      fun ⟨e, _, hbelow⟩ => hdirectory hbelow.isDirectory
    simp only [hnone, or_false]
    split at hfiles
    · rename_i hroot
      obtain ⟨hfile, hamong⟩ := Bool.and_eq_true_iff.1 hroot
      obtain rfl := Option.some.inj hfiles
      rw [List.mem_singleton]
      constructor
      · rintro rfl
        exact ⟨hamong, rfl, hfile⟩
      · exact fun hp => hp.2.1
    · rename_i hroot
      split at hfiles
      · obtain rfl := Option.some.inj hfiles
        refine ⟨fun hmem => absurd hmem List.not_mem_nil, ?_⟩
        rintro ⟨hamong, rfl, hfile⟩
        exact absurd (Bool.and_eq_true_iff.2 ⟨hfile, hamong⟩) hroot
      · cases hfiles

/-- Something stands at a root whose files can be listed, and only
there. -/
theorem exists_filesAt_iff :
    (∃ files, h.filesAt groups root = some files) ↔ h.pathExists root = true := by
  unfold filesAt
  split
  · rename_i hdirectory
    obtain ⟨l, hlocate⟩ := isDirectory_iff.1 hdirectory
    exact ⟨fun _ => by rw [pathExists, hlocate]; rfl, fun _ => ⟨_, rfl⟩⟩
  · split
    · rename_i hroot
      obtain ⟨content, hread⟩ := exists_read_of_isFile (Bool.and_eq_true_iff.1 hroot).1
      exact ⟨fun _ => pathExists_of_read hread, fun _ => ⟨_, rfl⟩⟩
    · split
      · rename_i hthere
        exact ⟨fun _ => hthere, fun _ => ⟨_, rfl⟩⟩
      · rename_i hthere
        refine ⟨?_, fun htrue => absurd htrue hthere⟩
        rintro ⟨_, hfiles⟩
        cases hfiles

/-! ## All roots -/

theorem filesAtEach_cons (h : Host) (groups : List FileGroup) (root : Path) (roots : List Path) :
    h.filesAtEach groups (root :: roots) =
      match h.filesAt groups (h.logicalPath root) with
      | none => .error (h.logicalPath root)
      | some here => (h.filesAtEach groups roots).map (here ++ ·) := (rfl)

theorem filesAtEach_cons_eq_ok : h.filesAtEach groups (root :: roots) = .ok files ↔
    ∃ here rest, h.filesAt groups (h.logicalPath root) = some here ∧
      h.filesAtEach groups roots = .ok rest ∧ files = here ++ rest := by
  rw [filesAtEach_cons]
  cases h.filesAt groups (h.logicalPath root) with
  | none => simp
  | some here =>
    cases h.filesAtEach groups roots with
    | error e => simp [Except.map]
    | ok rest => simp [Except.map, eq_comm]

theorem mem_filesAtEach (hfiles : h.filesAtEach groups roots = .ok files) :
    p ∈ files ↔ h.IsProjectFile groups roots p := by
  induction roots generalizing files with
  | nil =>
    cases hfiles
    exact ⟨fun hmem => absurd hmem List.not_mem_nil,
      fun ⟨_, r, hr, _⟩ => absurd hr List.not_mem_nil⟩
  | cons root roots ih =>
    obtain ⟨here, rest, hhere, hrest, rfl⟩ := filesAtEach_cons_eq_ok.1 hfiles
    rw [List.mem_append, mem_filesAt hhere, ih hrest, IsProjectFile, IsProjectFile, ← and_or_left,
      List.exists_mem_cons_iff]

/-- **A scan fails** only if nothing stands at some root. -/
theorem exists_filesAtEach_iff : (∃ files, h.filesAtEach groups roots = .ok files) ↔
    ∀ r ∈ roots, h.pathExists (h.logicalPath r) = true := by
  induction roots with
  | nil => exact ⟨fun _ r hr => absurd hr List.not_mem_nil, fun _ => ⟨[], rfl⟩⟩
  | cons root roots ih =>
    rw [List.forall_mem_cons, ← ih, ← exists_filesAt_iff]
    constructor
    · rintro ⟨files, hfiles⟩
      obtain ⟨here, rest, hhere, hrest, -⟩ := filesAtEach_cons_eq_ok.1 hfiles
      exact ⟨⟨here, hhere⟩, rest, hrest⟩
    · rintro ⟨⟨here, hhere⟩, rest, hrest⟩
      exact ⟨_, filesAtEach_cons_eq_ok.2 ⟨here, rest, hhere, hrest, rfl⟩⟩

/-! ## Spellings -/

/-- Without a working directory, only an absolute path leads anywhere. -/
theorem isCanonical_of_pathExists (hthere : h.pathExists (h.logicalPath p) = true) :
    (h.logicalPath p).IsCanonical := by
  by_cases hdirectory : h.directory = none
  · rw [logicalPath_of_directory_eq_none hdirectory] at hthere ⊢
    obtain ⟨s, hspot⟩ : ∃ s, h.spot p.normalize = .ok s := by
      unfold pathExists locate at hthere
      cases hspot : h.spot p.normalize with
      | error e => rw [hspot] at hthere; cases hthere
      | ok s => exact ⟨s, rfl⟩
    obtain ⟨-, -, d, hstart, -⟩ := spot_eq_ok_iff.1 hspot
    rw [start?, hdirectory, Path.isAbsolute_normalize] at hstart
    cases hp : p.isAbsolute with
    | true => exact Path.isCanonical_normalize hp
    | false => rw [hp] at hstart; cases hstart
  · exact isCanonical_logicalPath hdirectory p

/-- **What stands at a canonical root** has a canonical path. -/
theorem StandsAt.isCanonical (hroot : root.IsCanonical) (hstands : h.StandsAt root p) :
    p.IsCanonical := by
  rcases hstands with ⟨rfl, -⟩ | ⟨e, -, l, ns, -, hns, hentry, rfl⟩
  · exact hroot
  · obtain ⟨ms, rfl, hms⟩ := hroot.exists_names
    have hmem := FileTree.mem_entries_of_entry?
      (fun hnil => hns (List.append_eq_nil_iff.1 hnil).2) hentry
    have hvalid := (h.tree.proper _ hmem).2
    have hnames : ∀ n ∈ ns, Component.IsName n := fun n hn =>
      FileTree.isName_of_validName (hvalid n (List.mem_append_right _ hn))
    rw [Path.joinAll_names_toPath hms hnames]
    exact Path.isCanonical_toPath (List.forall_mem_append.2 ⟨hms, hnames⟩)

/-- **A listing** is spelled in the canonical way. -/
theorem isCanonical_of_mem_filesAtEach (hfiles : h.filesAtEach groups roots = .ok files)
    (hp : p ∈ files) : p.IsCanonical := by
  obtain ⟨-, r, hr, hstands⟩ := (mem_filesAtEach hfiles).1 hp
  exact hstands.isCanonical (isCanonical_of_pathExists (exists_filesAtEach_iff.1 ⟨_, hfiles⟩ r hr))

/-! ## The listing -/

theorem projectFiles_eq_ok : h.projectFiles groups roots = .ok found ↔
    ∃ files, h.filesAtEach groups roots = .ok files ∧ found = sortPaths files := by
  unfold projectFiles
  cases h.filesAtEach groups roots with
  | error e => simp [Except.map]
  | ok files => simp [Except.map, eq_comm]

theorem isCanonical_of_mem_projectFiles (hfound : h.projectFiles groups roots = .ok found)
    (hp : p ∈ found) : p.IsCanonical := by
  obtain ⟨files, hfiles, rfl⟩ := projectFiles_eq_ok.1 hfound
  have hnormal : Path.AreNormal files := fun q hq => (isCanonical_of_mem_filesAtEach hfiles hq).2
  exact isCanonical_of_mem_filesAtEach hfiles ((mem_sortPaths hnormal).1 hp)

/-- **A listing holds the files of the project**, each once and in strict
order, and the set of the roots decides it. -/
theorem projectFiles_eq_ok_iff : h.projectFiles groups roots = .ok found ↔
    (∀ r ∈ roots, h.pathExists (h.logicalPath r) = true) ∧ found.Pairwise Path.Precedes ∧
      ∀ p, p ∈ found ↔ h.IsProjectFile groups roots p := by
  have hnormal : ∀ files, h.filesAtEach groups roots = .ok files → Path.AreNormal files :=
    fun files hfiles q hq => (isCanonical_of_mem_filesAtEach hfiles hq).2
  rw [projectFiles_eq_ok, ← @exists_filesAtEach_iff h groups]
  constructor
  · rintro ⟨files, hfiles, rfl⟩
    refine ⟨⟨files, hfiles⟩, pairwise_sortPaths files, fun p => ?_⟩
    rw [mem_sortPaths (hnormal files hfiles), mem_filesAtEach hfiles]
  · rintro ⟨⟨files, hfiles⟩, hstrict, hmem⟩
    refine ⟨files, hfiles, ?_⟩
    refine hstrict.eq_of_mem_iff (pairwise_sortPaths files) fun p => ?_
    rw [mem_sortPaths (hnormal files hfiles), mem_filesAtEach hfiles, hmem]

end Host

end CompileCommands
