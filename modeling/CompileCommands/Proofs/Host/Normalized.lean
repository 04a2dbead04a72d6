import CompileCommands.Proofs.Host.Changes
import CompileCommands.Proofs.Path.Back
import CompileCommands.Proofs.Path.Relative
/-!
# Files under their canonical paths

Normalizing a path folds its `..` components without looking at the file
tree, while following it goes through directories that have to exist. In
a tree without links, a path that leads to a file leads where folding it
does (`walk_of_locate`), and from there the canonical path can be
followed as well: it goes up to a directory above the working directory,
or sets out from the root, and then goes down to the file through the
directories above it (`locate_normalize`).
-/

namespace CompileCommands

namespace Host

variable {h : Host} {p : Path} {d l : Location} {e : Entry} {content : ByteArray}
variable {k : Nat} {ns : List String}

/-! ## What is found -/

theorem spot_of_locate (hp : h.locate p = .ok (l, e)) : h.spot p = .ok (.taken l e) := by
  unfold locate at hp
  split at hp
  · cases hp
  · cases hp
  · rename_i m x hspot
    cases hp
    exact hspot

/-- A file that is found stands in the tree. -/
theorem mem_entries_of_locate (hp : h.locate p = .ok (l, .file content)) :
    (l, .file content) ∈ h.tree.entries := by
  obtain ⟨-, -, d, -, hfollow⟩ := spot_eq_ok_iff.1 (spot_of_locate hp)
  have hentry : h.tree.entry? l = some (.file content) :=
    FileTree.agrees_of_follow hfollow fun hdirectory => by cases hdirectory
  have hne : l ≠ [] := by
    rintro rfl
    cases hentry
  exact FileTree.mem_entries_of_entry? hne hentry

theorem read_of_locate (hp : h.locate p = .ok (l, .file content)) : h.read p = .ok content := by
  rw [read, hp]

theorem isFile_iff : h.isFile p = true ↔ ∃ l content, h.locate p = .ok (l, .file content) := by
  constructor
  · intro hfile
    unfold isFile at hfile
    split at hfile
    · rename_i l content hlocate
      exact ⟨l, content, hlocate⟩
    · cases hfile
  · rintro ⟨l, content, hlocate⟩
    rw [isFile, hlocate]

theorem isDirectory_iff : h.isDirectory p = true ↔ ∃ l, h.locate p = .ok (l, .directory) := by
  unfold isDirectory
  split
  · rename_i l hlocate
    exact ⟨fun _ => ⟨l, hlocate⟩, fun _ => rfl⟩
  · rename_i hnot
    exact ⟨fun hfalse => Bool.noConfusion hfalse, fun ⟨l, hl⟩ => absurd hl (hnot l)⟩

/-- **Without links a path leads where its steps fold to**, from where it
sets out. -/
theorem walk_of_leadsTo (ht : h.tree.IsLinkFree) (hp : h.LeadsTo p l) :
    ∃ d, h.start? p = some d ∧ (Place.absolute d).walk p.steps = .absolute l := by
  obtain ⟨s, hs, rfl⟩ := hp
  obtain ⟨-, -, d, hd, hfollow⟩ := spot_eq_ok_iff.1 hs
  exact ⟨d, hd, ht.walk_of_follow hfollow⟩

theorem walk_of_locate (ht : h.tree.IsLinkFree) (hp : h.locate p = .ok (l, e)) :
    ∃ d, h.start? p = some d ∧ (Place.absolute d).walk p.steps = .absolute l :=
  walk_of_leadsTo ht ⟨_, spot_of_locate hp, rfl⟩

/-- Without links a path that ends in a name leads to that name. -/
theorem getLast?_of_leadsTo {n : String} (ht : h.tree.IsLinkFree)
    (hn : Component.IsName n) (hl : h.LeadsTo (p.join ⟨n⟩) l) : l.getLast? = some n := by
  obtain ⟨d, -, hwalk⟩ := walk_of_leadsTo ht hl
  obtain ⟨m, hm⟩ := Place.exists_walk_absolute d p.steps
  rw [Path.steps_join_name hn, Place.walk_append, hm] at hwalk
  obtain rfl := Place.absolute.inj hwalk
  exact List.getLast?_concat ..

/-! ## Canonical paths -/

/-- A relative canonical path goes up from the working directory, and
then along its names. -/
theorem spot_toPath_relative (hdir : h.directory = some d) (hne : ns ≠ [])
    (hvalid : ∀ n ∈ ns, ValidName n) :
    h.spot (Place.relative k ns).toPath =
      h.tree.follow FileTree.linkLimit (d.take (d.length - k)) (ns.map String.toList) := by
  have hproper : (Place.relative k ns).IsProper :=
    fun n hn => FileTree.isName_of_validName (hvalid n hn)
  have hwords := Place.isProper_of_mem_words hproper
  have hnil : ¬ (k = 0 ∧ ns = []) := fun hboth => hne hboth.2
  have hfields : Text.fields (· == '/') (Place.relative k ns).toPath.chars =
      List.replicate k ['.', '.'] ++ ns.map String.toList := by
    rw [Place.chars_toPath_relative hnil, Text.fields_intercalate, List.map_append,
      List.map_replicate]
    · rfl
    · simpa using fun _ => hne
    · intro piece hpiece
      obtain ⟨w, hw, rfl⟩ := List.mem_map.1 hpiece
      exact (hwords w hw).2
  have hnul : '\x00' ∉ (Place.relative k ns).toPath.chars := by
    rw [Path.mem_chars_iff (by decide) (by decide), Place.steps_toPath_relative hproper]
    rintro ⟨n, hn, hin⟩
    rcases List.mem_append.1 hn with hup | hdown
    · cases List.eq_of_mem_replicate hup
    · obtain ⟨m, hm, hname⟩ := List.mem_map.1 hdown
      obtain rfl := Component.name.inj hname
      exact (hvalid m hm).2.2.2.2 hin
  have hempty : (Place.relative k ns).toPath.chars.isEmpty = false := by
    rw [List.isEmpty_eq_false_iff]
    intro hchars
    -- the last piece is a name
    obtain ⟨n, hn⟩ := List.exists_mem_of_ne_nil ns hne
    have hpiece : n.toList ∈ List.replicate k ['.', '.'] ++ ns.map String.toList :=
      List.mem_append_right _ (List.mem_map_of_mem hn)
    rw [← hfields, hchars] at hpiece
    exact (hproper n hn).ne_nil (List.mem_singleton.1 hpiece)
  rw [spot, if_neg (by simpa using hnul), hempty, Place.isAbsolute_toPath_relative hproper, hfields,
    hdir]
  exact FileTree.follow_up k d _

/-- **The absolute form of a path is the path of the location** that it
leads to, in a tree without links. -/
theorem absolutePath_of_leadsTo (ht : h.tree.IsLinkFree) (hw : h.HasWorkingDirectory)
    (hp : h.LeadsTo p l) : h.absolutePath p = (Place.absolute l).toPath := by
  obtain ⟨d, hd, hwalk⟩ := walk_of_leadsTo ht hp
  cases habs : p.isAbsolute with
  | true =>
    rw [start?, if_pos habs] at hd
    obtain rfl := Option.some.inj hd
    rw [absolutePath, if_pos habs, Path.normalize, Path.place, Place.walk_components, if_pos habs,
      hwalk]
  | false =>
    rw [start?, if_neg (by rw [habs]; exact Bool.false_ne_true)] at hd
    have hnames : (Place.absolute d).IsProper := fun n hn => FileTree.isName_of_validName
      (FileTree.validName_of_hasDirectory (FileTree.hasDirectory_of_entry? (hw d hd)) n hn)
    have hplace : ((Place.absolute d).toPath.join p).place = .absolute l := by
      rw [Path.place_join_eq_walk, Place.place_toPath hnames, Place.walk_components,
        if_neg (by rw [habs]; exact Bool.false_ne_true), hwalk]
    rw [absolutePath, if_neg (by rw [habs]; exact Bool.false_ne_true), directoryPath, hd]
    change (Path.normalizeIn (Place.absolute d).toPath p) = _
    rw [Path.normalizeIn, Path.normalize, hplace]

/-- **The canonical path of a file leads to the file**, in a tree without
links. -/
theorem locate_normalize (ht : h.tree.IsLinkFree) (hw : h.HasWorkingDirectory)
    (hp : h.locate p = .ok (l, .file content)) :
    h.locate p.normalize = .ok (l, .file content) := by
  have hmem := mem_entries_of_locate hp
  obtain ⟨d, hd, hwalk⟩ := walk_of_locate ht hp
  cases habs : p.isAbsolute with
  | true =>
    rw [start?, if_pos habs] at hd
    obtain rfl := Option.some.inj hd
    have hplace : p.place = .absolute l := by
      rw [Path.place, Place.walk_components, if_pos habs, hwalk]
    rw [Path.normalize, hplace]
    exact locate_toPath hmem
  | false =>
    rw [start?, if_neg (by rw [habs]; exact Bool.false_ne_true)] at hd
    obtain ⟨k, ns, hplace⟩ := Path.exists_place_of_relative habs
    -- the place leads from the working directory to the file
    have hfrom : d.take (d.length - k) ++ ns = l := by
      have hsteps : (Place.absolute d).walk p.place.components = .absolute l := by
        rw [Place.walk_place, Place.walk_components,
          if_neg (by rw [habs]; exact Bool.false_ne_true), hwalk]
      rw [hplace, Place.walk_components_relative, walk_parents_absolute,
        Place.walk_names_absolute] at hsteps
      exact Place.absolute.inj hsteps
    have hworking := FileTree.hasDirectory_of_entry? (hw d hd)
    have habove := hworking.take (d.length - k)
    have hne : ns ≠ [] := by
      rintro rfl
      rw [List.append_nil] at hfrom
      rw [hfrom] at habove
      have hboth := (FileTree.entry?_of_hasDirectory habove).symm.trans
        (FileTree.entry?_of_mem_entries hmem)
      cases hboth
    have hvalid : ∀ n ∈ ns, ValidName n := by
      intro n hn
      refine (h.tree.proper _ hmem).2 n ?_
      rw [← hfrom]
      exact List.mem_append_right _ hn
    rw [← hfrom] at hmem
    rw [Path.normalize, hplace, locate, spot_toPath_relative hd hne hvalid,
      FileTree.follow_location hne hmem, hfrom]

end Host

end CompileCommands
