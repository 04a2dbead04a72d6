import CompileCommands.Proofs.Headers.Inference
import CompileCommands.Proofs.Host.RelativePath
/-!
# Lending in a relative directory

A command that is lent to a header is meant for that header. In an
absolute directory it always is. In a relative one the header's path is
put behind the directory although it is not seen from there: it is seen
from the working directory, as the directory itself is. What is lent is
then for another file in most cases, and `normalizedFile_lentTo_iff` says
in which.
-/

namespace CompileCommands

variable {h : Host} {c : CompileCommand} {d p q base : Path}

/-! ## A directory below the working directory -/

namespace RelativeBuild

/-- A directory with a source and the header that it includes. -/
def tree (source : ByteArray) : FileTree where
  entries := [(["w"], .directory), (["w", "build"], .directory),
    (["w", "build", "a.c"], .file source), (["w", "build", "x.h"], .file ByteArray.empty)]
  distinct := by simp
  proper := by simp; decide
  closed := by simp

/-- The working directory is the one above. -/
def host : Host :=
  ⟨tree (Cycle.includeLine "x.h").toByteArray, some ["w"], none, none, none⟩

def command : CompileCommand := ⟨⟨"build"⟩, ⟨"a.c"⟩, ["cc", "-c", "a.c"], none⟩

/-- A file of the directory, seen from the working directory. -/
theorem locate_file {p : Path} {n : String} {content : ByteArray}
    (hchars : p.chars.contains '\x00' = false ∧ p.chars.isEmpty = false ∧ p.isAbsolute = false)
    (hfields : Text.fields (· == '/') p.chars = ["build".toList, n.toList])
    (hn : Component.ofPiece? n.toList = some (.name n))
    (hentry : host.tree.entry? ["w", "build", n] = some (.file content)) :
    host.locate p = .ok (["w", "build", n], .file content) := by
  obtain ⟨hnul, hempty, hrelative⟩ := hchars
  have hspot : host.spot p = .ok (.taken ["w", "build", n] (.file content)) := by
    rw [Host.spot, if_neg (by rw [hnul]; exact Bool.false_ne_true),
      if_neg (by rw [hempty]; exact Bool.false_ne_true), hfields, hrelative]
    change host.tree.follow _ ["w"] _ = _
    rw [FileTree.follow_directory (n := "build") (by decide) rfl, FileTree.follow_file hn hentry]
    rfl
  rw [Host.locate, hspot]

theorem locate_source : host.locate ⟨"build/a.c"⟩ =
    .ok (["w", "build", "a.c"], .file (Cycle.includeLine "x.h").toByteArray) :=
  locate_file (by decide) (by decide) (by decide) rfl

theorem locate_header : host.locate ⟨"build/x.h"⟩ =
    .ok (["w", "build", "x.h"], .file ByteArray.empty) :=
  locate_file (by decide) (by decide) (by decide) rfl

theorem includedFiles_command : command.includedFiles host = [⟨"build/x.h"⟩] := by
  have hread : host.read command.normalizedFile = .ok (Cycle.includeLine "x.h").toByteArray := by
    rw [show command.normalizedFile = ⟨"build/a.c"⟩ by decide, Host.read, locate_source]
  have hline : Include.ofContent (Cycle.includeLine "x.h") = [⟨.quoted, "x.h"⟩] := by
    decide +kernel
  have hplaces : Include.places ⟨.quoted, "x.h"⟩ command.normalizedFile command.searchDirectories =
      [⟨"build"⟩] := by
    decide
  have hheader : host.isFile ((⟨"build"⟩ : Path).join ⟨"x.h"⟩) = true := by
    rw [show (⟨"build"⟩ : Path).join ⟨"x.h"⟩ = ⟨"build/x.h"⟩ by decide, Host.isFile, locate_header]
  rw [CompileCommand.includedFiles_of_isFile hread (by rw [Text.toList_toByteArray, hline]) hplaces
    hheader]
  decide

end RelativeBuild

/-! ## Which headers are lent a command -/

namespace CompileCommand

/-- An absolute path is spelled absolutely for an absolute file, and for a
relative one if there is no working directory. -/
theorem isAbsolute_spelledLike_iff (hdir : c.directory.isAbsolute = false)
    (hp : p.isAbsolute = true) : (p.spelledLike h c.file c.directory).isAbsolute = true ↔
      c.file.isAbsolute = true ∨ h.directory = none := by
  have hknown : (h.absolutePath c.directory).isAbsolute = false ↔ h.directory = none := by
    rw [← Bool.not_eq_true, Host.isAbsolute_absolutePath, hdir, or_iff_right Bool.false_ne_true,
      not_not]
  unfold Path.spelledLike
  cases hfile : c.file.isAbsolute with
  | true =>
    rw [if_pos rfl, Path.isAbsolute_join, hp, Bool.or_true]
    exact ⟨fun _ => .inl rfl, fun _ => rfl⟩
  | false =>
    rw [if_neg Bool.false_ne_true, if_pos hp, Host.isAbsolute_relativePath, hknown,
      Host.isAbsolute_absolutePath, and_iff_right (.inl hp), or_iff_right Bool.false_ne_true]

/-- **Lending keeps the file** in an absolute directory. In a relative one
it does so for absolute paths, if the lender's file is absolute or there
is no working directory, and for relative paths that lead back. -/
theorem normalizedFile_lentTo_iff (hp : p ∈ c.includedFiles h) :
    (c.lentTo h p).normalizedFile = p ↔
      c.directory.isAbsolute = true ∨
      (p.isAbsolute = true ∧ (c.file.isAbsolute = true ∨ h.directory = none)) ∨
      Path.LeadsBack c.directory p := by
  have hnormal := normalize_of_mem_includedFiles hp
  cases hdir : c.directory.isAbsolute with
  | true =>
    have hkept := normalizedFile_lentTo (h := h) hdir (isCanonical_of_mem_includedFiles hdir hp)
    exact ⟨fun _ => .inl rfl, fun _ => hkept⟩
  | false =>
    rw [or_iff_right Bool.false_ne_true]
    cases habs : p.isAbsolute with
    | true =>
      -- an absolute path is no relative one that leads back
      have hnone : ¬ Path.LeadsBack c.directory p := by
        rintro ⟨ms, k, ns, -, hplace, -⟩
        obtain ⟨names, hnames, -⟩ := Path.exists_place_of_absolute habs
        cases hplace.symm.trans hnames
      rw [or_iff_left hnone, and_iff_right rfl, ← isAbsolute_spelledLike_iff hdir habs]
      -- what is lent is for the header unless it is for no absolute path
      have hspelled : (c.lentTo h p).normalizedFile.isAbsolute =
          (p.spelledLike h c.file c.directory).isAbsolute := by
        change (Path.normalizeIn c.directory (p.spelledLike h c.file c.directory)).isAbsolute = _
        rw [Path.normalizeIn, Path.isAbsolute_normalize, Path.isAbsolute_join, hdir, Bool.false_or]
      rw [← hspelled]
      exact ⟨fun hkept => by rw [hkept, habs], normalizedFile_lentTo_of_isAbsolute hp⟩
    | false =>
      rw [or_iff_right fun hfalse => Bool.false_ne_true hfalse.1]
      change Path.normalizeIn c.directory (p.spelledLike h c.file c.directory) = p ↔ _
      unfold Path.spelledLike
      split
      · rw [← Path.normalizeIn_join_eq_iff hdir habs, hnormal]
      · rw [if_neg (by rw [habs]; exact Bool.false_ne_true), ← Path.normalizeIn_eq_iff hdir habs,
          hnormal]

/-- A header next to its source, in a relative directory. -/
theorem normalizedFile_lentTo_iff_build :
    (⟨"build/x.h"⟩ : Path) ∈ RelativeBuild.command.includedFiles RelativeBuild.host ∧
      ((RelativeBuild.command.lentTo RelativeBuild.host ⟨"build/x.h"⟩).normalizedFile =
          ⟨"build/x.h"⟩ ↔
        RelativeBuild.command.directory.isAbsolute = true ∨
        ((⟨"build/x.h"⟩ : Path).isAbsolute = true ∧
          (RelativeBuild.command.file.isAbsolute = true ∨ RelativeBuild.host.directory = none)) ∨
        Path.LeadsBack RelativeBuild.command.directory ⟨"build/x.h"⟩) := by
  have hmem : (⟨"build/x.h"⟩ : Path) ∈
      RelativeBuild.command.includedFiles RelativeBuild.host := by
    rw [RelativeBuild.includedFiles_command]
    exact List.mem_singleton_self _
  exact ⟨hmem, normalizedFile_lentTo_iff hmem⟩

end CompileCommand

/-- **A header next to a source in a relative directory** is lent a command
for another file, below that directory a second time. -/
theorem normalizedFile_lentTo_relative :
    (⟨"build/x.h"⟩ : Path) ∈ RelativeBuild.command.includedFiles RelativeBuild.host ∧
      (RelativeBuild.command.lentTo RelativeBuild.host ⟨"build/x.h"⟩).normalizedFile =
        ⟨"build/build/x.h"⟩ ∧
      (⟨"build/build/x.h"⟩ : Path) ≠ ⟨"build/x.h"⟩ := by
  rw [RelativeBuild.includedFiles_command]
  exact ⟨List.mem_singleton_self _, by decide, by decide⟩

end CompileCommands
