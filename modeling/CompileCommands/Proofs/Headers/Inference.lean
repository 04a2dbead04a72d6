import CompileCommands.Layers.Basic
import CompileCommands.Proofs.Database.Answers
import CompileCommands.Proofs.Headers.Identity
import CompileCommands.Proofs.Headers.Rounds
import CompileCommands.Proofs.Host.Spots
import CompileCommands.Proofs.Text.Utf8
import CompileCommands.Proofs.Traversal
/-!
# Inference over layers

From a run to what it gives: the commands inferred for a build directory
are those of the findings that were lent from there, in the order of the
run, and each is a command for the header that was found. A run found no
header twice and none that was known, so neither does any file get a
second command.
-/

namespace CompileCommands

variable {h : Host} {p : Path}

namespace Inference

variable {known : List Path} {frontier : List Source} {rs : List Round} {s : Source}

/-- A run carries along what sources pass on to what they lend. -/
theorem found_induction {P : Source → Prop} (hstart : ∀ s ∈ frontier, P s) (n : Nat)
    (hlend : ∀ f ∈ found (roundsUpTo h n known frontier), P f.lender →
      f.header ∈ f.lender.command.includedFiles h → P (f.source h)) :
    ∀ f ∈ found (roundsUpTo h n known frontier),
      P f.lender ∧ f.header ∈ f.lender.command.includedFiles h := by
  induction n generalizing known frontier with
  | zero => exact fun f hf => absurd hf List.not_mem_nil
  | succ n ih =>
    have hround : ∀ f ∈ (round h known frontier).findings,
        P f.lender ∧ f.header ∈ f.lender.command.includedFiles h := fun f hf =>
      have hlender := lender_of_mem_round hf
      ⟨hstart _ hlender.1, hlender.2.1⟩
    rw [found_roundsUpTo_succ] at hlend ⊢
    intro f hf
    rcases List.mem_append.1 hf with hf | hf
    · exact hround f hf
    · refine ih (fun s hs => ?_) (fun g hg => hlend g (List.mem_append_right _ hg)) f hf
      obtain ⟨g, hg, rfl⟩ := mem_next.1 hs
      exact hlend g (List.mem_append_left _ hg) (hround g hg).1 (hround g hg).2

/-- Whether all sources run in absolute directories. -/
def AbsoluteSources (ss : List Source) : Prop := ∀ s ∈ ss, s.command.directory.isAbsolute = true

/-- **An inferred command is one for the header that was found.** -/
theorem normalizedFile_of_found (hstart : AbsoluteSources frontier) {n : Nat} {f : Finding}
    (hf : f ∈ found (roundsUpTo h n known frontier)) :
    (f.source h).command.normalizedFile = f.header := by
  obtain ⟨hlender, hheader⟩ :=
    found_induction (P := fun s => s.command.directory.isAbsolute = true) hstart n
      (fun _ _ hlender _ => hlender) f hf
  exact CompileCommand.normalizedFile_lentTo hlender
    (CompileCommand.isCanonical_of_mem_includedFiles hlender hheader)

/-- What is inferred for a directory, finding by finding. -/
theorem inferredFor_eq (rs : List Round) (directory : Nat) :
    inferredFor h rs directory =
      ((found rs).filter fun f => f.lender.directory = directory).map
        fun f => (f.source h).command := by
  unfold inferredFor found
  rw [List.filter_flatMap, List.map_flatMap]
  congr 1
  funext r
  rw [List.filter_map, List.map_map]
  rfl

/-! ## The sources of layers -/

theorem mem_sourcesOf {j : Nat} {css : List (List CompileCommand)} :
    s ∈ sourcesOf j css ↔ ∃ i cs, css[i]? = some cs ∧ s.directory = j + i ∧ s.command ∈ cs := by
  induction css generalizing j with
  | nil => simp [sourcesOf]
  | cons cs css ih =>
    rw [sourcesOf, List.mem_append, ih]
    constructor
    · rintro (hs | ⟨i, ds, hds, hdir, hcommand⟩)
      · obtain ⟨c, hc, rfl⟩ := List.mem_map.1 hs
        exact ⟨0, cs, rfl, rfl, hc⟩
      · exact ⟨i + 1, ds, hds, by omega, hcommand⟩
    · rintro ⟨i, ds, hds, hdir, hcommand⟩
      cases i with
      | zero =>
        obtain rfl := Option.some.inj hds
        exact .inl (List.mem_map.2 ⟨s.command, hcommand, by cases s; simp_all⟩)
      | succ i => exact .inr ⟨i, ds, hds, by omega, hcommand⟩

end Inference

/-! ## Reading the layers -/

variable {layers : List (List Contents)} {css : List (List (List CompileCommand))}
variable {out : List (List CompileCommand)}

theorem readable_eq_ok : readable layers = .ok css ↔ layers = css.map (List.map .ok) := by
  rw [readable, mapM_eq_ok]
  induction layers generalizing css with
  | nil => cases css <;> simp
  | cons l layers ih =>
    cases css with
    | nil => simp
    | cons cs css =>
      rw [List.map_cons, List.map_cons, List.map_cons, List.cons.injEq, List.cons.injEq, ih,
        mapM_eq_ok, List.map_id]

/-- **An inference that succeeds** has read all layers, and gives what its
run inferred for each directory of the first one. -/
theorem inferHeaders_eq_ok : (inferHeaders h layers).value = .ok out ↔
    ∃ css, layers = css.map (List.map .ok) ∧
      out = (List.range (layers.head?.getD []).length).map
        (Inference.inferredFor h (Inference.run h css)) := by
  unfold inferHeaders
  cases hread : readable layers with
  | error e =>
    have hnone : ∀ css : List (List (List CompileCommand)), layers ≠ css.map (List.map .ok) :=
      fun css hcss => by rw [readable_eq_ok.2 hcss] at hread; cases hread
    simp [Noted.silent, hnone]
  | ok css =>
    have hcss := readable_eq_ok.1 hread
    constructor
    · intro hout
      exact ⟨css, hcss, (Except.ok.inj hout).symm⟩
    · rintro ⟨css', hcss', rfl⟩
      rw [readable_eq_ok.2 hcss'] at hread
      obtain rfl := Except.ok.inj hread
      rfl

/-! ## What the layers hold -/

namespace LayeredDatabase

variable {stack : List Layer} {s : Inference.Source} {i : Nat} {c : CompileCommand}

/-- Whether a layer's database for directory `i` can be read and holds
`c`. -/
def Holds (h : Host) (stack : List Layer) (i : Nat) (c : CompileCommand) : Prop :=
  ∃ l ∈ stack, ∃ d cs, l[i]? = some d ∧ d.commands h = .ok cs ∧ c ∈ cs

/-- Whether all that the layers hold runs in absolute directories. -/
def IsAbsolute (h : Host) (stack : List Layer) : Prop :=
  ∀ i c, Holds h stack i c → c.directory.isAbsolute = true

theorem commands_of_contents (hread : contents h stack = css.map (List.map .ok)) {l : Layer}
    {d : Database} (hl : l ∈ stack) (hd : l[i]? = some d) :
    ∃ lss ∈ css, ∃ cs, lss[i]? = some cs ∧ d.commands h = .ok cs := by
  have hmem : l.map (·.commands h) ∈ css.map (List.map .ok) :=
    hread ▸ List.mem_map.2 ⟨l, hl, rfl⟩
  obtain ⟨lss, hlss, heq⟩ := List.mem_map.1 hmem
  have hi : (lss.map Except.ok)[i]? = some (d.commands h) := by
    rw [heq, List.getElem?_map, hd]
    rfl
  rw [List.getElem?_map, Option.map_eq_some_iff] at hi
  obtain ⟨cs, hcs, hok⟩ := hi
  exact ⟨lss, hlss, cs, hcs, hok.symm⟩

theorem holds_iff_of_contents (hread : contents h stack = css.map (List.map .ok)) :
    Holds h stack i c ↔ ∃ lss ∈ css, ∃ cs, lss[i]? = some cs ∧ c ∈ cs := by
  constructor
  · rintro ⟨l, hl, d, cs, hd, hcs, hc⟩
    obtain ⟨lss, hlss, ds, hds, hok⟩ := commands_of_contents hread hl hd
    obtain rfl := Except.ok.inj (hcs.symm.trans hok)
    exact ⟨lss, hlss, cs, hds, hc⟩
  · rintro ⟨lss, hlss, cs, hcs, hc⟩
    have hmem : lss.map Except.ok ∈ contents h stack := hread ▸ List.mem_map.2 ⟨lss, hlss, rfl⟩
    obtain ⟨l, hl, heq⟩ := List.mem_map.1 hmem
    have hi : (l.map (·.commands h))[i]? = some (.ok cs) := by
      rw [heq, List.getElem?_map, hcs]
      rfl
    rw [List.getElem?_map, Option.map_eq_some_iff] at hi
    obtain ⟨d, hd, hok⟩ := hi
    exact ⟨l, hl, d, cs, hd, hok, hc⟩

/-- The sources of a run are what the layers hold. -/
theorem mem_sources (hread : contents h stack = css.map (List.map .ok)) :
    s ∈ css.flatMap (Inference.sourcesOf 0) ↔ Holds h stack s.directory s.command := by
  rw [holds_iff_of_contents hread]
  simp only [List.mem_flatMap, Inference.mem_sourcesOf, Nat.zero_add]
  constructor
  · rintro ⟨lss, hlss, i, cs, hcs, hdir, hc⟩
    exact ⟨lss, hlss, cs, hdir ▸ hcs, hc⟩
  · rintro ⟨lss, hlss, cs, hcs, hc⟩
    exact ⟨lss, hlss, s.directory, cs, hcs, rfl, hc⟩

/-- The files that a run knows are those of what the layers hold. -/
theorem mem_known (hread : contents h stack = css.map (List.map .ok)) :
    p ∈ css.flatten.flatten.map CompileCommand.normalizedFile ↔
      ∃ i c, Holds h stack i c ∧ c.normalizedFile = p := by
  simp only [holds_iff_of_contents hread, List.mem_map, List.mem_flatten]
  constructor
  · rintro ⟨c, ⟨cs, ⟨lss, hlss, hcs⟩, hc⟩, rfl⟩
    obtain ⟨i, hi⟩ := List.mem_iff_getElem?.1 hcs
    exact ⟨i, c, ⟨lss, hlss, cs, hi, hc⟩, rfl⟩
  · rintro ⟨i, c, ⟨lss, hlss, cs, hcs, hc⟩, rfl⟩
    exact ⟨c, ⟨cs, ⟨lss, hlss, List.mem_of_getElem? hcs⟩, hc⟩, rfl⟩

theorem IsAbsolute.sources (habs : IsAbsolute h stack)
    (hread : contents h stack = css.map (List.map .ok)) :
    Inference.AbsoluteSources (css.flatMap (Inference.sourcesOf 0)) :=
  fun s hs => habs s.directory s.command ((mem_sources hread).1 hs)

end LayeredDatabase

/-! ## No header twice -/

namespace Inference

/-- The inferred commands stand for findings, each for one of its own. -/
theorem normalizedFiles_inferredFor {known : List Path} {frontier : List Source}
    (hstart : AbsoluteSources frontier) (directory : Nat) :
    (inferredFor h (rounds h known frontier) directory).map CompileCommand.normalizedFile =
      ((found (rounds h known frontier)).filter fun f => f.lender.directory = directory).map
        Finding.header := by
  rw [inferredFor_eq, List.map_map]
  refine List.map_congr_left fun f hf => ?_
  rw [Function.comp_apply]
  exact normalizedFile_of_found hstart (List.mem_filter.1 hf).1

/-- Parting a list without repeats by a number keeps it without
repeats. -/
theorem nodup_flatMap_filter {α β : Type} (key : α → Nat) (g : α → β) {xs : List α}
    (hxs : (xs.map g).Nodup) (n : Nat) :
    ((List.range n).flatMap fun i => (xs.filter fun x => key x = i).map g).Nodup := by
  refine List.nodup_flatMap.2 ⟨fun i _ => hxs.sublist (List.filter_sublist.map g), ?_⟩
  refine List.nodup_range.imp fun {i j} hij => ?_
  intro y hi hj
  obtain ⟨a, ha, rfl⟩ := List.mem_map.1 hi
  obtain ⟨b, hb, hab⟩ := List.mem_map.1 hj
  obtain ⟨ha, hai⟩ := List.mem_filter.1 ha
  obtain ⟨hb, hbj⟩ := List.mem_filter.1 hb
  -- what stands for both is one element, and that has one number
  have heq : b = a := List.inj_on_of_nodup_map hxs hb ha hab
  subst heq
  exact hij ((of_decide_eq_true hai).symm.trans (of_decide_eq_true hbj))

end Inference

/-! ## Two files that include each other -/

namespace Cycle

open Text

/-- The content of a file that includes one other. -/
def includeLine (name : String) : List UInt8 := utf8 ("#include \"" ++ name ++ "\"").toList

/-- A directory with two files. -/
def tree (source header : ByteArray) : FileTree where
  entries := [(["p"], .directory), (["p", "a.c"], .file source), (["p", "b.h"], .file header)]
  distinct := by simp
  proper := by simp; decide
  closed := by simp

def hostOf (source header : ByteArray) : Host := ⟨tree source header, some [], none, none, none⟩

/-- The source includes the header and the header the source. -/
def host : Host := hostOf (includeLine "b.h").toByteArray (includeLine "a.c").toByteArray

def command : CompileCommand := ⟨⟨"/p"⟩, ⟨"a.c"⟩, ["cc", "-c", "a.c"], none⟩

def inferred : CompileCommand := ⟨⟨"/p"⟩, ⟨"b.h"⟩, ["cc", "-c", "b.h"], none⟩

def stack : List Layer := [[.memory [command]]]

theorem locate_source (a b : ByteArray) :
    (hostOf a b).locate ⟨"/p/a.c"⟩ = .ok (["p", "a.c"], .file a) := by
  have hpath : (Place.absolute ["p", "a.c"]).toPath = ⟨"/p/a.c"⟩ := by decide
  rw [← hpath]
  exact Host.locate_toPath (by simp [hostOf, tree])

theorem locate_header (a b : ByteArray) :
    (hostOf a b).locate ⟨"/p/b.h"⟩ = .ok (["p", "b.h"], .file b) := by
  have hpath : (Place.absolute ["p", "b.h"]).toPath = ⟨"/p/b.h"⟩ := by decide
  rw [← hpath]
  exact Host.locate_toPath (by simp [hostOf, tree])

theorem ofContent_includeLine :
    Include.ofContent (includeLine "b.h") = [⟨.quoted, "b.h"⟩] ∧
      Include.ofContent (includeLine "a.c") = [⟨.quoted, "a.c"⟩] := by
  decide +kernel

/-- A file of the directory that includes another one there. -/
theorem includedFiles_eq {c : CompileCommand} {n : String}
    (hread : host.read c.normalizedFile = .ok (includeLine n).toByteArray)
    (hline : Include.ofContent (includeLine n) = [⟨.quoted, n⟩])
    (hplaces : Include.places ⟨.quoted, n⟩ c.normalizedFile c.searchDirectories = [⟨"/p"⟩])
    (hfile : host.isFile ((⟨"/p"⟩ : Path).join ⟨n⟩) = true) :
    c.includedFiles host = [Path.normalizeIn ⟨"/p"⟩ ⟨n⟩] := by
  have hcontent : Include.ofContent (includeLine n).toByteArray.toList = [⟨.quoted, n⟩] := by
    rw [toList_toByteArray, hline]
  rw [CompileCommand.includedFiles_of_isFile (i := ⟨.quoted, n⟩) hread hcontent hplaces hfile]

theorem includedFiles_command : command.includedFiles host = [⟨"/p/b.h"⟩] := by
  refine (includedFiles_eq (n := "b.h") ?_ ofContent_includeLine.1 (by decide) ?_).trans (by decide)
  · rw [show command.normalizedFile = ⟨"/p/a.c"⟩ by decide, Host.read, host, locate_source]
  · rw [show (⟨"/p"⟩ : Path).join ⟨"b.h"⟩ = ⟨"/p/b.h"⟩ by decide, Host.isFile, host, locate_header]

theorem includedFiles_inferred : inferred.includedFiles host = [⟨"/p/a.c"⟩] := by
  refine (includedFiles_eq (n := "a.c") ?_ ofContent_includeLine.2 (by decide) ?_).trans (by decide)
  · rw [show inferred.normalizedFile = ⟨"/p/b.h"⟩ by decide, Host.read, host, locate_header]
  · rw [show (⟨"/p"⟩ : Path).join ⟨"a.c"⟩ = ⟨"/p/a.c"⟩ by decide, Host.isFile, host, locate_source]

theorem lentTo_command : command.lentTo host ⟨"/p/b.h"⟩ = inferred := by
  decide

theorem isAbsolute : LayeredDatabase.IsAbsolute host stack := by
  rintro i c ⟨l, hl, d, cs, hd, hcs, hc⟩
  obtain rfl := List.mem_singleton.1 hl
  obtain rfl := List.mem_singleton.1 (List.mem_of_getElem? hd)
  obtain rfl := Except.ok.inj hcs
  obtain rfl := List.mem_singleton.1 hc
  decide

/-- What the run finds: the header, lent by the source. -/
def finding : Inference.Finding :=
  ⟨⟨"/p/b.h"⟩, command.normalizedFile.similarity ⟨"/p/b.h"⟩, ⟨0, command⟩⟩

theorem found_run : Inference.found (Inference.run host [[[command]]]) = [finding] := by
  have hround : Inference.round host [command.normalizedFile] [⟨0, command⟩] =
      ⟨[⟨0, command⟩], [finding]⟩ := by
    have hnew : (⟨"/p/b.h"⟩ : Path) ∉ [command.normalizedFile] := by decide
    rw [Inference.round, Inference.offers, List.flatMap_singleton, includedFiles_command,
      List.filter_cons_of_pos (by simpa using hnew)]
    rfl
  obtain ⟨n, hn⟩ : ∃ n, Inference.roundLimit host = n + 1 :=
    Nat.exists_eq_succ_of_ne_zero (Nat.ne_of_gt (Nat.pow_pos (Nat.succ_pos _)))
  change Inference.found (Inference.rounds host [command.normalizedFile] [⟨0, command⟩]) = _
  rw [Inference.rounds, hn, Inference.found_roundsUpTo_succ, hround,
    Inference.found_of_closed n, List.append_nil]
  -- the second round scans the header, which includes the source again
  intro s hs p hp
  obtain ⟨f, hf, rfl⟩ := Inference.mem_next.1 hs
  obtain rfl := List.mem_singleton.1 hf
  have hsource : (finding.source host).command = inferred := lentTo_command
  rw [hsource, includedFiles_inferred] at hp
  obtain rfl := List.mem_singleton.1 hp
  exact List.mem_append_right _ (by decide)

/-- The header gets a command, and the source, which it includes, no
second one. -/
theorem inferHeaders_eq :
    (inferHeaders host (LayeredDatabase.contents host stack)).value = .ok [[inferred]] := by
  refine inferHeaders_eq_ok.2 ⟨[[[command]]], rfl, ?_⟩
  change _ = (List.range 1).map _
  have hkept : [finding].filter (fun f => f.lender.directory = 0) = [finding] := rfl
  rw [List.range_one, List.map_singleton, Inference.inferredFor_eq, found_run, hkept,
    List.map_singleton]
  exact congrArg (fun c => [[c]]) lentTo_command.symm

end Cycle

variable {stack : List Layer}

/-- **Nothing is derived again.** A file that any database of the layers
lists gets no command, and no file gets two, whichever directories they
would be in and whichever rounds found them. -/
theorem inferHeaders_new_files (hdir : LayeredDatabase.IsAbsolute h stack)
    (hout : (inferHeaders h (LayeredDatabase.contents h stack)).value = .ok out) :
    (∀ l ∈ stack, ∀ d ∈ l, ∃ fs, d.files h = .ok fs ∧
      ∀ c ∈ out.flatten, c.normalizedFile ∉ fs) ∧
    (out.flatten.map CompileCommand.normalizedFile).Nodup := by
  obtain ⟨css, hread, rfl⟩ := inferHeaders_eq_ok.1 hout
  have hstart := hdir.sources hread
  obtain ⟨hnodup, hfresh⟩ := Inference.fresh_rounds h
    (css.flatten.flatten.map CompileCommand.normalizedFile) (css.flatMap (Inference.sourcesOf 0))
  rw [← List.flatMap_def]
  refine ⟨fun l hl d hd => ?_, ?_⟩
  · obtain ⟨i, hi⟩ := List.mem_iff_getElem?.1 hd
    obtain ⟨lss, hlss, cs, hcs, hok⟩ := LayeredDatabase.commands_of_contents hread hl hi
    refine ⟨cs.map CompileCommand.normalizedFile, ?_, fun c hc hfile => ?_⟩
    · rw [Database.files_eq_map_commands, hok]
      rfl
    · obtain ⟨k, -, hc⟩ := List.mem_flatMap.1 hc
      have hheader : c.normalizedFile ∈ (Inference.inferredFor h (Inference.run h css) k).map
          CompileCommand.normalizedFile := List.mem_map.2 ⟨c, hc, rfl⟩
      rw [Inference.run, Inference.normalizedFiles_inferredFor hstart] at hheader
      obtain ⟨f, hf, heq⟩ := List.mem_map.1 hheader
      -- a listed file is known from the start, and no finding is
      refine hfresh f (List.mem_filter.1 hf).1 ?_
      obtain ⟨e, he, hefile⟩ := List.mem_map.1 hfile
      exact (LayeredDatabase.mem_known hread).2
        ⟨i, e, ⟨l, hl, d, cs, hi, hok, he⟩, by rw [hefile, heq]⟩
  · -- a header was found once, and the finding was lent in one directory
    rw [List.map_flatMap]
    simp only [Inference.run, Inference.normalizedFiles_inferredFor hstart]
    exact Inference.nodup_flatMap_filter _ _ hnodup _

theorem inferHeaders_new_files_cycle :
    LayeredDatabase.IsAbsolute Cycle.host Cycle.stack ∧
    (inferHeaders Cycle.host (LayeredDatabase.contents Cycle.host Cycle.stack)).value =
      .ok [[Cycle.inferred]] ∧
    (∀ l ∈ Cycle.stack, ∀ d ∈ l, ∃ fs, d.files Cycle.host = .ok fs ∧
      ∀ c ∈ [[Cycle.inferred]].flatten, c.normalizedFile ∉ fs) ∧
    ([[Cycle.inferred]].flatten.map CompileCommand.normalizedFile).Nodup :=
  ⟨Cycle.isAbsolute, Cycle.inferHeaders_eq,
    inferHeaders_new_files Cycle.isAbsolute Cycle.inferHeaders_eq⟩

end CompileCommands
