import CompileCommands.Proofs.Headers.Closure
/-!
# How many rounds a run takes

Rounds go on for as long as there is something to scan and headers are
found (`Loop`), without a limit of their own. In a tree without links a
header is a regular file under the one canonical path that such a file
has, whatever spelling it was included by, and each round but the last
finds one that no round before has found. So there is at most one round
more than there are files that were not known (`rounds_end`).
-/

namespace CompileCommands

variable {h : Host} {p : Path}

/-! ## The files of a tree -/

namespace FileTree

variable {t : FileTree}

/-- The canonical paths of the regular files of a tree. -/
def filePaths (t : FileTree) : List Path :=
  t.entries.filterMap fun e =>
    match e.2 with
    | .file _ => some (Place.absolute e.1).toPath
    | _ => none

theorem mem_filePaths {l : Location} {content : ByteArray}
    (hfile : (l, .file content) ∈ t.entries) : (Place.absolute l).toPath ∈ t.filePaths :=
  List.mem_filterMap.2 ⟨_, hfile, rfl⟩

theorem length_filePaths_le (t : FileTree) : t.filePaths.length ≤ t.entries.length :=
  List.length_filterMap_le ..

end FileTree

/-- **Without links a file has one canonical path**, that of its location,
however it is spelled. -/
theorem Host.normalize_mem_filePaths (ht : h.tree.IsLinkFree) (hp : p.isAbsolute = true)
    (hfile : h.isFile p = true) : p.normalize ∈ h.tree.filePaths := by
  obtain ⟨content, hread⟩ := exists_read_of_isFile hfile
  obtain ⟨l, hspot⟩ := spot_of_read hread
  obtain ⟨-, -, d, hd, hfollow⟩ := spot_eq_ok_iff.1 hspot
  rw [start?, if_pos hp] at hd
  obtain rfl := Option.some.inj hd
  have hplace : p.place = .absolute l := by
    rw [Path.place, Place.walk_components, if_pos hp]
    exact ht.walk_of_follow hfollow
  have hentry : h.tree.entry? l = some (.file content) :=
    FileTree.agrees_of_follow hfollow (fun hdir => by cases hdir)
  have hl : l ≠ [] := fun hl => by
    rw [hl] at hentry
    cases hentry
  rw [Path.normalize, hplace]
  have hmem := FileTree.mem_entries_of_entry? hl hentry
  exact FileTree.mem_filePaths hmem

/-- An included file is one of the files of the tree. -/
theorem Include.mem_filePaths_of_file? {i : Include} {f : Path} {directories : List Path}
    (ht : h.tree.IsLinkFree) (hf : f.isAbsolute = true)
    (hdirectories : ∀ d ∈ directories, d.isAbsolute = true)
    (hp : i.file? h f directories = some p) : p ∈ h.tree.filePaths := by
  obtain ⟨d, hd, rfl⟩ := Option.map_eq_some_iff.1 hp
  rw [directory?] at hd
  have habs := isAbsolute_of_mem_places hf hdirectories (List.mem_of_find?_eq_some hd)
  have hfile := List.find?_some hd
  have hjoin : (d.join ⟨i.name⟩).isAbsolute = true := by
    rw [Path.isAbsolute_join, habs, Bool.true_or]
  exact Host.normalize_mem_filePaths ht hjoin hfile

theorem CompileCommand.mem_filePaths_of_mem_includedFiles {c : CompileCommand}
    (ht : h.tree.IsLinkFree) (hc : c.directory.isAbsolute = true) (hp : p ∈ c.includedFiles h) :
    p ∈ h.tree.filePaths := by
  obtain ⟨i, -, hi⟩ := List.mem_filterMap.1 hp
  exact Include.mem_filePaths_of_file? ht (isCanonical_normalizedFile hc).1
    (isAbsolute_of_mem_searchDirectories hc) hi

namespace Inference

variable {known : List Path} {frontier : List Source} {rs : List Round}

/-- The rounds of a run that no limit ends: they go on until there is
nothing to scan, or a round has found nothing. -/
inductive Loop (h : Host) : List Path → List Source → List Round → Prop
  | idle (known : List Path) : Loop h known [] []
  | last {known : List Path} {frontier : List Source} : frontier ≠ [] →
      (round h known frontier).findings = [] → Loop h known frontier [round h known frontier]
  | more {known : List Path} {frontier : List Source} {rs : List Round} : frontier ≠ [] →
      (round h known frontier).findings ≠ [] →
      Loop h ((round h known frontier).headers ++ known) ((round h known frontier).next h) rs →
      Loop h known frontier (round h known frontier :: rs)

/-- **A run has one course.** -/
theorem Loop.unique {rs' : List Round} (hrun : Loop h known frontier rs)
    (hrun' : Loop h known frontier rs') : rs' = rs := by
  induction hrun generalizing rs' with
  | idle known =>
    cases hrun' with
    | idle => rfl
    | last hne _ => exact absurd rfl hne
    | more hne _ _ => exact absurd rfl hne
  | last hne hnone =>
    cases hrun' with
    | idle => exact absurd rfl hne
    | last _ _ => rfl
    | more _ hsome _ => exact absurd hnone hsome
  | more hne hsome _ ih =>
    cases hrun' with
    | idle => exact absurd rfl hne
    | last _ hnone => exact absurd hnone hsome
    | more _ _ hrest => rw [ih hrest]

theorem roundsUpTo_nil (n : Nat) : roundsUpTo h n known [] = [] := by
  cases n <;> rfl

theorem roundsUpTo_succ (n : Nat) (hne : frontier ≠ []) : roundsUpTo h (n + 1) known frontier =
    if (round h known frontier).findings = [] then [round h known frontier]
    else round h known frontier :: roundsUpTo h n ((round h known frontier).headers ++ known)
      ((round h known frontier).next h) := by
  cases frontier with
  | nil => exact absurd rfl hne
  | cons s frontier => simp only [roundsUpTo, List.isEmpty_iff, Round.headers]

/-- **Every round but the last uses a file up**, so rounds that may use up
all of them come to their end. -/
theorem loop_roundsUpTo {F : Finset Path}
    (hF : ∀ c : CompileCommand, c.directory.isAbsolute = true → ∀ p ∈ c.includedFiles h, p ∈ F)
    (n : Nat) (hstart : AbsoluteSources frontier) (hroom : (F.filter (· ∉ known)).card < n) :
    Loop h known frontier (roundsUpTo h n known frontier) ∧
      (roundsUpTo h n known frontier).length ≤ (F.filter (· ∉ known)).card + 1 := by
  induction n generalizing known frontier with
  | zero => exact absurd hroom (Nat.not_lt_zero _)
  | succ n ih =>
    by_cases hne : frontier = []
    · subst hne
      rw [roundsUpTo_nil]
      exact ⟨.idle known, Nat.zero_le _⟩
    rw [roundsUpTo_succ n hne]
    by_cases hnone : (round h known frontier).findings = []
    · rw [if_pos hnone]
      exact ⟨.last hne hnone, Nat.le_add_left 1 _⟩
    · rw [if_neg hnone]
      obtain ⟨f, hf⟩ := List.exists_mem_of_ne_nil _ hnone
      obtain ⟨hlender, hincluded, hnew⟩ := lender_of_mem_round hf
      have hfound : f.header ∈ (round h known frontier).headers := List.mem_map_of_mem hf
      have hcard := card_filter_append_lt (hF _ (hstart _ hlender) _ hincluded) hnew hfound
      obtain ⟨hrest, hlength⟩ := @ih ((round h known frontier).headers ++ known) _
        hstart.next (by omega)
      exact ⟨.more hne hnone hrest, by rw [List.length_cons]; omega⟩

/-- **A run ends in a tree without links**, after one round more than there
are files to find. -/
theorem loop_rounds (known : List Path) (ht : h.tree.IsLinkFree)
    (hstart : AbsoluteSources frontier) :
    Loop h known frontier (rounds h known frontier) ∧
      (rounds h known frontier).length ≤ (h.tree.filePaths.filter (· ∉ known)).length + 1 := by
  have hcard : (h.tree.filePaths.toFinset.filter (· ∉ known)).card ≤
      (h.tree.filePaths.filter (· ∉ known)).length := by
    refine le_trans (Finset.card_le_card fun p hp => ?_) (List.toFinset_card_le _)
    obtain ⟨hp, hnew⟩ := Finset.mem_filter.1 hp
    exact List.mem_toFinset.2 (List.mem_filter.2 ⟨List.mem_toFinset.1 hp, decide_eq_true hnew⟩)
  have hlimit : (h.tree.filePaths.filter (· ∉ known)).length < roundLimit h :=
    calc (h.tree.filePaths.filter (· ∉ known)).length
        ≤ h.tree.filePaths.length := List.length_filter_le ..
      _ ≤ h.tree.entries.length := h.tree.length_filePaths_le
      _ < h.tree.entries.length + 2 := Nat.lt_add_of_pos_right Nat.two_pos
      _ ≤ (h.tree.entries.length + 2) ^ (FileTree.linkLimit + 2) :=
        Nat.le_self_pow (Nat.succ_ne_zero _) _
  obtain ⟨hloop, hlength⟩ := loop_roundsUpTo (F := h.tree.filePaths.toFinset)
    (fun c hc p hp => List.mem_toFinset.2 (c.mem_filePaths_of_mem_includedFiles ht hc hp))
    (roundLimit h) hstart (lt_of_le_of_lt hcard hlimit)
  exact ⟨hloop, le_trans hlength (Nat.add_le_add_right hcard 1)⟩

end Inference

namespace LayeredDatabase

variable {stack : List Layer} {css : List (List (List CompileCommand))} {n : Nat}

/-- **Header inference ends.** In a tree without links the rounds over
layers of one length come to an end, after at most one more than there
are regular files that the layers do not list, and every header that
they find is lent in one of the build directories. -/
theorem rounds_end (ht : h.tree.IsLinkFree) (hdir : IsAbsolute h stack)
    (hlength : ∀ l ∈ stack, l.length = n)
    (hread : contents h stack = css.map (List.map .ok)) :
    ∃ rs, Inference.Loop h (css.flatten.flatten.map CompileCommand.normalizedFile)
        (css.flatMap (Inference.sourcesOf 0)) rs ∧
      (∀ rs', Inference.Loop h (css.flatten.flatten.map CompileCommand.normalizedFile)
        (css.flatMap (Inference.sourcesOf 0)) rs' → rs' = rs) ∧
      rs.length ≤ (h.tree.filePaths.filter
        (· ∉ css.flatten.flatten.map CompileCommand.normalizedFile)).length + 1 ∧
      (∀ f ∈ Inference.found rs, f.lender.directory < n) ∧
      (inferHeaders h (contents h stack)).value = .ok
        ((List.range ((contents h stack).head?.getD []).length).map
          (Inference.inferredFor h rs)) := by
  obtain ⟨hloop, hrounds⟩ := Inference.loop_rounds
    (css.flatten.flatten.map CompileCommand.normalizedFile) ht (hdir.sources hread)
  refine ⟨_, hloop, fun rs' hrs' => hloop.unique hrs', hrounds, fun f hf => ?_,
    inferHeaders_eq_ok.2 ⟨css, hread, rfl⟩⟩
  refine Inference.directory_lt_of_found (fun s hs => ?_) hf
  obtain ⟨l, hl, d, cs, hd, -⟩ := (mem_sources hread).1 hs
  exact hlength l hl ▸ (List.getElem?_eq_some_iff.1 hd).1

/-- Two files that include each other, one of them listed: one round finds
the other file, and the next nothing more. -/
theorem rounds_end_cycle :
    Cycle.host.tree.IsLinkFree ∧ IsAbsolute Cycle.host Cycle.stack ∧
    (∀ l ∈ Cycle.stack, l.length = 1) ∧
    ∃ rs, Inference.Loop Cycle.host [Cycle.command.normalizedFile] [⟨0, Cycle.command⟩] rs ∧
      (∀ rs', Inference.Loop Cycle.host [Cycle.command.normalizedFile] [⟨0, Cycle.command⟩] rs' →
        rs' = rs) ∧
      rs.length ≤ 2 ∧ (∀ f ∈ Inference.found rs, f.lender.directory < 1) ∧
      (inferHeaders Cycle.host (contents Cycle.host Cycle.stack)).value =
        .ok [Inference.inferredFor Cycle.host rs 0] := by
  have hlinks : Cycle.host.tree.IsLinkFree := by
    simp [FileTree.IsLinkFree, Cycle.host, Cycle.hostOf, Cycle.tree]
  have hlength : ∀ l ∈ Cycle.stack, l.length = 1 := by decide
  have hnew : (Cycle.host.tree.filePaths.filter
      (· ∉ [Cycle.command.normalizedFile])).length = 1 := by decide
  have hread : contents Cycle.host Cycle.stack = [[[Cycle.command]]].map (List.map .ok) := rfl
  obtain ⟨rs, hloop, hunique, hrounds, hlenders, hout⟩ :=
    rounds_end hlinks Cycle.isAbsolute hlength hread
  exact ⟨hlinks, Cycle.isAbsolute, hlength, rs, hloop, hunique,
    hrounds.trans_eq (congrArg (· + 1) hnew), hlenders, hout⟩

end LayeredDatabase

end CompileCommands
