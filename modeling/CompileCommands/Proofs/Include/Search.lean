import CompileCommands.Include.Search
import CompileCommands.Proofs.Headers.RelativeDirectory
import CompileCommands.Proofs.Host.Normalized
/-!
# The file that an include is found as

An include is looked for under the text of its name, and what is found is
given its canonical path. In a tree without links that path leads to the
very file that was come upon (`isFirstHit_of_file?`), the first of those
that stand under the name in one of the directories. So it can be
scanned, whatever `..` the name or a search directory goes through.

Which directories these are depends on the delimiter
(`found_and_readable`): a name between angles is looked for in the search
directories, a quoted one before that in the directory of the file that
includes it.
-/

namespace CompileCommands

namespace Include

variable {h : Host} {i : Include} {includer p : Path} {directories : List Path}

/-- Whether `p` is the canonical path of the first file that stands under
the name of the include in one of the directories that are tried. -/
structure IsFirstHit (h : Host) (i : Include) (tried : List Path) (p : Path) : Prop where
  normal : p.normalize = p
  first : ∃ before d after, tried = before ++ d :: after ∧ p = Path.normalizeIn d ⟨i.name⟩ ∧
    (∀ e ∈ before, h.isFile (e.join ⟨i.name⟩) = false) ∧
    ∃ l content, (l, .file content) ∈ h.tree.entries ∧
      h.locate (d.join ⟨i.name⟩) = .ok (l, .file content) ∧ h.locate p = .ok (l, .file content)

/-! ## The directories that are tried -/

theorem places_angled (hi : i.delimiter = .angled) :
    i.places includer directories = directories := by
  rw [places, hi]

/-- A quoted name is looked for in the directory of its includer first. -/
theorem places_quoted {d : Path} (hi : i.delimiter = .quoted) (hd : includer.parent? = some d)
    (hne : d ≠ .empty) : i.places includer directories = d :: directories := by
  have hchars : d.chars.isEmpty = false := by
    rw [← Bool.not_eq_true, List.isEmpty_iff]
    exact fun hnil => hne (congrArg Path.mk (String.toList_eq_nil_iff.1 hnil))
  rw [places, hi, ownDirectory?, hd, Option.filter_some, hchars]
  rfl

/-- Unless that directory has no name. -/
theorem places_quoted_of_unnamed (hi : i.delimiter = .quoted)
    (hnone : ∀ d, includer.parent? = some d → d = .empty) :
    i.places includer directories = directories := by
  have hown : ownDirectory? includer = none := by
    refine Option.filter_eq_none_iff.2 fun d hd => ?_
    rw [hnone d hd]
    decide
  rw [places, hi, hown]
  rfl

/-! ## The first hit -/

theorem file?_eq_none_iff : i.file? h includer directories = none ↔
    ∀ d ∈ i.places includer directories, h.isFile (d.join ⟨i.name⟩) = false := by
  rw [file?, Option.map_eq_none_iff, directory?, List.find?_eq_none]
  simp only [Bool.not_eq_true]

/-- **The file that is found** stands under the canonical path as it does
under the name, and none stands in a directory before. -/
theorem isFirstHit_of_file? (ht : h.tree.IsLinkFree) (hw : h.HasWorkingDirectory)
    (hp : i.file? h includer directories = some p) :
    IsFirstHit h i (i.places includer directories) p := by
  obtain ⟨d, hd, rfl⟩ := Option.map_eq_some_iff.1 hp
  obtain ⟨hfile, before, after, hplaces, hbefore⟩ := List.find?_eq_some_iff_append.1 hd
  obtain ⟨l, content, hlocate⟩ := Host.isFile_iff.1 hfile
  refine ⟨Path.normalize_normalize _, before, d, after, hplaces, rfl, ?_, l, content, ?_⟩
  · intro e he
    have hother := hbefore e he
    rwa [Bool.not_eq_true'] at hother
  · exact ⟨Host.mem_entries_of_locate hlocate, hlocate, Host.locate_normalize ht hw hlocate⟩

/-- A file that is there is scanned without a complaint. -/
theorem IsFirstHit.scanned {tried : List Path} (hhit : IsFirstHit h i tried p) :
    ∃ content, h.read p = .ok content ∧ h.scanLines p = [] ∧
      h.includesOf p = Include.ofContent content.toList := by
  obtain ⟨-, -, -, -, -, -, l, content, -, -, hlocate⟩ := hhit.first
  have hread := Host.read_of_locate hlocate
  refine ⟨content, hread, ?_, ?_⟩
  · rw [Host.scanLines, hread]
  · rw [Host.includesOf, hread]

/-- Whether an include is found along the directories that are tried: what
is found is the first file of its name, which can be read, and nothing is
found only where there is none. -/
structure IsFoundAlong (h : Host) (i : Include) (includer : Path)
    (directories tried : List Path) : Prop where
  found : ∀ p, i.file? h includer directories = some p → IsFirstHit h i tried p ∧
    ∃ content, h.read p = .ok content ∧ h.scanLines p = [] ∧
      h.includesOf p = Include.ofContent content.toList
  none_iff : i.file? h includer directories = none ↔
    ∀ d ∈ tried, h.isFile (d.join ⟨i.name⟩) = false

theorem isFoundAlong_places (ht : h.tree.IsLinkFree) (hw : h.HasWorkingDirectory) (i : Include)
    (includer : Path) (directories : List Path) :
    IsFoundAlong h i includer directories (i.places includer directories) where
  found p hp := by
    have hhit := isFirstHit_of_file? ht hw hp
    exact ⟨hhit, hhit.scanned⟩
  none_iff := file?_eq_none_iff

/-- **An include is found as the first file of its name, which can be
read**, and is not found only where there is none. A name between angles
is looked for in the search directories in order; a quoted one is looked
for in the directory of its includer and then in them, or only in them if
the includer's path names no directory. -/
theorem found_and_readable (ht : h.tree.IsLinkFree) (hw : h.HasWorkingDirectory) (i : Include)
    (includer : Path) (directories : List Path) :
    (i.delimiter = .angled → IsFoundAlong h i includer directories directories) ∧
    (i.delimiter = .quoted →
      (∀ d, includer.parent? = some d → d ≠ .empty →
        IsFoundAlong h i includer directories (d :: directories)) ∧
      ((∀ d, includer.parent? = some d → d = .empty) →
        IsFoundAlong h i includer directories directories)) := by
  have hfound := isFoundAlong_places ht hw i includer directories
  refine ⟨fun hi => ?_, fun hi => ⟨fun d hd hne => ?_, fun hnone => ?_⟩⟩
  · rwa [places_angled hi] at hfound
  · rwa [places_quoted hi hd hne] at hfound
  · rwa [places_quoted_of_unnamed hi hnone] at hfound

/-! ## A name that goes up and down -/

namespace UpAndDown

/-- The name leads back into the directory it is looked for in. -/
def header : Include := ⟨.quoted, "../build//./x.h"⟩

theorem isLinkFree : RelativeBuild.host.tree.IsLinkFree := by
  simp [FileTree.IsLinkFree, RelativeBuild.host, RelativeBuild.tree]

theorem hasWorkingDirectory : RelativeBuild.host.HasWorkingDirectory := by
  intro d hd
  cases hd
  rfl

/-- The same name between angles. -/
def angled : Include := ⟨.angled, header.name⟩

theorem parent?_source : (⟨"build/a.c"⟩ : Path).parent? = some ⟨"build"⟩ := by decide

theorem locate_header :
    RelativeBuild.host.locate ((⟨"build"⟩ : Path).join ⟨header.name⟩) =
      .ok (["w", "build", "x.h"], .file ByteArray.empty) := by
  have hjoin : (⟨"build"⟩ : Path).join ⟨header.name⟩ = ⟨"build/../build//./x.h"⟩ := by decide
  have hspot : RelativeBuild.host.spot ⟨"build/../build//./x.h"⟩ =
      .ok (.taken ["w", "build", "x.h"] (.file ByteArray.empty)) := by
    refine Host.spot_eq_ok_iff.2 ⟨by decide, by decide, ["w"], rfl, ?_⟩
    have hfields : Text.fields (· == '/') (⟨"build/../build//./x.h"⟩ : Path).chars =
        ["build".toList, ['.', '.'], "build".toList, [], ['.'], "x.h".toList] := by
      decide
    rw [hfields, FileTree.follow_directory (n := "build") (by decide) rfl,
      FileTree.follow_parent rfl, FileTree.follow_directory (n := "build") (by decide) rfl,
      FileTree.follow_idle rfl, FileTree.follow_idle rfl,
      FileTree.follow_file (n := "x.h") (c := ByteArray.empty) (by decide) rfl]
    rfl
  rw [hjoin, Host.locate, hspot]

theorem file?_header :
    header.file? RelativeBuild.host ⟨"build/a.c"⟩ [⟨"inc"⟩] = some ⟨"build/x.h"⟩ := by
  have hfile : RelativeBuild.host.isFile ((⟨"build"⟩ : Path).join ⟨header.name⟩) = true := by
    rw [Host.isFile, locate_header]
  have hplaces : header.places ⟨"build/a.c"⟩ [⟨"inc"⟩] = [⟨"build"⟩, ⟨"inc"⟩] :=
    places_quoted rfl parent?_source (by decide)
  have hnormal : Path.normalizeIn ⟨"build"⟩ ⟨header.name⟩ = ⟨"build/x.h"⟩ := by decide
  rw [file?_of_isFile hplaces hfile, hnormal]

/-- The search directory does not exist, so nothing can be reached through
it. -/
theorem isFile_search :
    RelativeBuild.host.isFile ((⟨"inc"⟩ : Path).join ⟨angled.name⟩) = false := by
  have hjoin : (⟨"inc"⟩ : Path).join ⟨angled.name⟩ = ⟨"inc/../build//./x.h"⟩ := by decide
  have hfields : Text.fields (· == '/') (⟨"inc/../build//./x.h"⟩ : Path).chars =
      ["inc".toList, ['.', '.'], "build".toList, [], ['.'], "x.h".toList] := by
    decide
  have hspot : RelativeBuild.host.spot ⟨"inc/../build//./x.h"⟩ = .error .notFound := by
    rw [Host.spot, if_neg (by decide), if_neg (by decide), hfields]
    exact FileTree.follow_none (n := "inc") (by decide) rfl
  rw [hjoin, Host.isFile, Host.locate, hspot]

end UpAndDown

/-- The header is found next to the source, under a name that leaves the
directory on the way; between angles that name is not found. -/
theorem found_and_readable_up_and_down :
    RelativeBuild.host.tree.IsLinkFree ∧ RelativeBuild.host.HasWorkingDirectory ∧
    (⟨"build/a.c"⟩ : Path).parent? = some ⟨"build"⟩ ∧
    UpAndDown.header.file? RelativeBuild.host ⟨"build/a.c"⟩ [⟨"inc"⟩] = some ⟨"build/x.h"⟩ ∧
    IsFirstHit RelativeBuild.host UpAndDown.header [⟨"build"⟩, ⟨"inc"⟩] ⟨"build/x.h"⟩ ∧
    RelativeBuild.host.scanLines ⟨"build/x.h"⟩ = [] ∧
    UpAndDown.angled.file? RelativeBuild.host ⟨"build/a.c"⟩ [⟨"inc"⟩] = none := by
  obtain ⟨-, hquoted⟩ := found_and_readable UpAndDown.isLinkFree UpAndDown.hasWorkingDirectory
    UpAndDown.header ⟨"build/a.c"⟩ [⟨"inc"⟩]
  obtain ⟨hangled, -⟩ := found_and_readable UpAndDown.isLinkFree UpAndDown.hasWorkingDirectory
    UpAndDown.angled ⟨"build/a.c"⟩ [⟨"inc"⟩]
  obtain ⟨hhit, content, -, hlines, -⟩ :=
    ((hquoted rfl).1 _ UpAndDown.parent?_source (by decide)).found _ UpAndDown.file?_header
  exact ⟨UpAndDown.isLinkFree, UpAndDown.hasWorkingDirectory, UpAndDown.parent?_source,
    UpAndDown.file?_header, hhit, hlines,
    (hangled rfl).none_iff.2 (List.forall_mem_singleton.2 UpAndDown.isFile_search)⟩

end Include

end CompileCommands
