import CompileCommands.Host.Basic
import CompileCommands.Path.Place
import CompileCommands.Proofs.FileTree.Locations
/-!
# Where paths lead on a host

A path is followed from the root or from the working directory. What it
leads to when a file is read is that file, and every file of the tree is
found under the canonical path of its location.
-/

namespace CompileCommands

namespace Host

variable {h : Host} {p : Path} {s : Spot} {content : ByteArray}

/-- Where a path sets out from: the root or the working directory. -/
def start? (h : Host) (p : Path) : Option Location := if p.isAbsolute then some [] else h.directory

theorem start?_join_name {n : String} (hn : Component.IsName n) :
    h.start? (p.join ⟨n⟩) = h.start? p := by
  rw [start?, start?, Path.isAbsolute_join, Path.isAbsolute_of_isName hn, Bool.or_false]

/-- A path leads somewhere if it can be a name, is not empty, and can be
followed from its start. -/
theorem spot_eq_ok_iff :
    h.spot p = .ok s ↔ p.chars.contains '\x00' = false ∧ p.chars.isEmpty = false ∧
      ∃ d, h.start? p = some d ∧
        h.tree.follow FileTree.linkLimit d (Text.fields (· == '/') p.chars) = .ok s := by
  unfold spot start?
  cases p.chars.contains '\x00' <;> cases p.chars.isEmpty <;> cases p.isAbsolute <;>
    cases h.directory <;> simp

theorem spot_of_read (hread : h.read p = .ok content) :
    ∃ l, h.spot p = .ok (.taken l (.file content)) := by
  unfold read locate at hread
  cases hspot : h.spot p with
  | error e => rw [hspot] at hread; cases hread
  | ok s =>
    rw [hspot] at hread
    cases s with
    | vacant l => cases hread
    | taken l e =>
      cases e with
      | file c =>
        obtain rfl := Except.ok.inj hread
        exact ⟨l, rfl⟩
      | directory => cases hread
      | link target => cases hread

theorem isFile_of_read (hread : h.read p = .ok content) : h.isFile p = true := by
  obtain ⟨l, hspot⟩ := spot_of_read hread
  rw [isFile, locate, hspot]

theorem exists_read_of_isFile (hfile : h.isFile p = true) : ∃ content, h.read p = .ok content := by
  unfold isFile at hfile
  unfold read
  split at hfile
  · rename_i l content hlocate
    exact ⟨content, by rw [hlocate]⟩
  · cases hfile

theorem pathExists_of_read (hread : h.read p = .ok content) : h.pathExists p = true := by
  obtain ⟨l, hspot⟩ := spot_of_read hread
  rw [pathExists, locate, hspot]
  rfl

/-! ## Canonical paths -/

/-- What a canonical path leads to is what its names lead to from the
root. -/
theorem fields_toPath_absolute {ns : List String} (hne : ns ≠ [])
    (hns : ∀ n ∈ ns, Component.IsName n) :
    Text.fields (· == '/') (Place.absolute ns).toPath.chars = [] :: ns.map String.toList := by
  rw [Place.chars_toPath_absolute, Text.fields, if_pos (by simp), Text.fields_intercalate]
  · simpa using hne
  · intro piece hpiece
    obtain ⟨m, hm, rfl⟩ := List.mem_map.1 hpiece
    exact (hns m hm).2

theorem exists_fields_toPath {ns : List String} (hns : ∀ n ∈ ns, Component.IsName n) :
    ∃ k, Text.fields (· == '/') (Place.absolute ns).toPath.chars =
      List.replicate k [] ++ ns.map String.toList := by
  by_cases hne : ns = []
  · subst hne
    exact ⟨2, rfl⟩
  · exact ⟨1, fields_toPath_absolute hne hns⟩

/-- Empty pieces lead nowhere. -/
theorem follow_replicate_nil {t : FileTree} {links : Nat} {dir : Location} (k : Nat)
    (pieces : List (List Char)) :
    t.follow links dir (List.replicate k [] ++ pieces) = t.follow links dir pieces := by
  refine FileTree.follow_idles (fun p hp => ?_) pieces
  rw [List.eq_of_mem_replicate hp]
  rfl

/-- The path of a location is followed along its names. -/
theorem spot_toPath {l : Location} (hvalid : ∀ n ∈ l, ValidName n) :
    h.spot (Place.absolute l).toPath =
      h.tree.follow FileTree.linkLimit [] (l.map String.toList) := by
  have hnames : ∀ n ∈ l, Component.IsName n :=
    fun n hn => FileTree.isName_of_validName (hvalid n hn)
  obtain ⟨k, hfields⟩ := exists_fields_toPath hnames
  have hnul : '\x00' ∉ (Place.absolute l).toPath.chars := by
    rw [Path.mem_chars_iff (by decide) (by decide), Place.steps_toPath_absolute hnames]
    rintro ⟨n, hn, hin⟩
    obtain ⟨m, hm, hname⟩ := List.mem_map.1 hn
    obtain rfl := Component.name.inj hname
    exact (hvalid m hm).2.2.2.2 hin
  have hempty : (Place.absolute l).toPath.chars.isEmpty = false := by
    rw [Place.chars_toPath_absolute]
    rfl
  rw [spot, if_neg (by simpa using hnul), hempty, Place.isAbsolute_toPath_absolute, hfields]
  exact follow_replicate_nil k _

/-- **Every file is found under the path of its location.** -/
theorem locate_toPath {l : Location} (hfile : (l, .file content) ∈ h.tree.entries) :
    h.locate (Place.absolute l).toPath = .ok (l, .file content) := by
  obtain ⟨hne, hvalid⟩ := h.tree.proper _ hfile
  rw [locate, spot_toPath hvalid, FileTree.follow_location (m := []) hne hfile]
  rfl

/-- **And so is every directory.** -/
theorem locate_toPath_directory {l : Location} (hd : h.tree.HasDirectory l) :
    h.locate (Place.absolute l).toPath = .ok (l, .directory) := by
  rw [locate, spot_toPath (FileTree.validName_of_hasDirectory hd),
    FileTree.follow_names (m := []) hd]
  rfl

theorem read_toPath {l : Location} (hfile : (l, .file content) ∈ h.tree.entries) :
    h.read (Place.absolute l).toPath = .ok content := by
  rw [read, locate_toPath hfile]

end Host

end CompileCommands
