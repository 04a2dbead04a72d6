import CompileCommands.Proofs.Headers.Closure
import CompileCommands.Proofs.Headers.DepthFirst
import CompileCommands.Proofs.Headers.Index
/-!
# What the index covers of an inference

An inference scans a file for each command that it comes with, the index
scans it once, for the command that reaches it first. So the index has an
answer for every header that gets a command, unless the line of its
lenders goes through a file that the index has scanned without finding
the next one, and finds neither that one nor those after it anywhere else.
Then, and only then, it has none (`covers_inferred`). That this happens,
and what is lost then, shows a source that another one includes
(`not_covered_when_scanned_once`); with the included source first, nothing
is lost (`covers_inferred_scanned_first`).
-/

namespace CompileCommands

open Answers

variable {h : Host} {source : Answers} {cs : List CompileCommand}
variable {out : List (List CompileCommand)} {c : CompileCommand} {p : Path}
variable {t : IncludeGraph.Record}

/-! ## What the scans of the index find -/

/-- Whether one of the scans finds `p`: a file that has been scanned
includes it, in the directories that the file was scanned with. -/
def IncludeGraph.Record.Finds (h : Host) (t : Record) (p : Path) : Prop :=
  ∃ f directories, (f, directories) ∈ t.scans ∧ p ∈ h.includedBy directories f

/-- **What is found is scanned**, too. -/
theorem IncludeGraph.Record.Finds.scanned (hp : t.Finds h p)
    (hrun : IncludeGraph.DepthFirstAll h cs .start t) : p ∈ t.scanned := by
  obtain ⟨f, directories, hf, hp⟩ := hp
  have hedge : (p, f) ∈ t.edges :=
    ((hrun.isTrace IncludeGraph.Record.isTrace_start).edges p f).2 ⟨directories, hf, hp⟩
  exact hrun.scanned_of_edge (fun e he => absurd he List.not_mem_nil) _ hedge

/-- Whether scanning files only once, in the scans of `t`, hides an inferred
command. -/
inductive Overlooked (h : Host) (cs : List CompileCommand) (out : List (List CompileCommand))
    (t : IncludeGraph.Record) : CompileCommand → Prop
  /-- The file of `e` was scanned with `directories`, in which it does not
  include `p` as it does in those of `e`, and no other scan finds `p`. -/
  | missed {e : CompileCommand} {directories : List Path} {p : Path} :
      e ∈ cs ∨ e ∈ out.flatten → (e.normalizedFile, directories) ∈ t.scans →
      p ∈ e.includedFiles h → p ∉ h.includedBy directories e.normalizedFile → ¬ t.Finds h p →
      e.lentTo h p ∈ out.flatten → Overlooked h cs out t (e.lentTo h p)
  /-- The lender is overlooked, and no scan finds what it lends to. -/
  | passed {c : CompileCommand} {p : Path} :
      Overlooked h cs out t c → p ∈ c.includedFiles h → ¬ t.Finds h p →
      c.lentTo h p ∈ out.flatten → Overlooked h cs out t (c.lentTo h p)

namespace Overlooked

theorem mem_inferred (hc : Overlooked h cs out t c) : c ∈ out.flatten := by
  cases hc with
  | missed _ _ _ _ _ hout => exact hout
  | passed _ _ _ hout => exact hout

/-- **No scan finds the file** of an overlooked command. -/
theorem not_finds (hc : Overlooked h cs out t c)
    (habs : ∀ e, e ∈ cs ∨ e ∈ out.flatten → e.directory.isAbsolute = true) :
    ¬ t.Finds h c.normalizedFile := by
  have hfile : ∀ {e : CompileCommand} {p : Path}, e ∈ cs ∨ e ∈ out.flatten →
      p ∈ e.includedFiles h → (e.lentTo h p).normalizedFile = p := fun he hp =>
    CompileCommand.normalizedFile_lentTo (habs _ he)
      (CompileCommand.isCanonical_of_mem_includedFiles (habs _ he) hp)
  cases hc with
  | missed he _ hp _ hnone _ => rwa [hfile he hp]
  | passed hc hp hnone _ => rwa [hfile (.inr hc.mem_inferred) hp]

end Overlooked

/-- Whether a command is one whose file has been scanned, or that is
overlooked. -/
structure Accounted (h : Host) (cs : List CompileCommand) (out : List (List CompileCommand))
    (t : IncludeGraph.Record) (c : CompileCommand) : Prop where
  given : c ∈ cs ∨ c ∈ out.flatten
  scanned : c.normalizedFile ∈ t.scanned ∨ Overlooked h cs out t c

/-- **What such a command lends** is such a command. -/
theorem Accounted.lentTo (hc : Accounted h cs out t c)
    (habs : ∀ e, e ∈ cs ∨ e ∈ out.flatten → e.directory.isAbsolute = true)
    (hrun : IncludeGraph.DepthFirstAll h cs .start t) (hp : p ∈ c.includedFiles h)
    (hout : c.lentTo h p ∈ out.flatten) : Accounted h cs out t (c.lentTo h p) := by
  refine ⟨.inr hout, ?_⟩
  by_cases hfound : t.Finds h p
  · have hdir := habs c hc.given
    have hfile : (c.lentTo h p).normalizedFile = p := CompileCommand.normalizedFile_lentTo
      hdir (CompileCommand.isCanonical_of_mem_includedFiles hdir hp)
    exact .inl (hfile.symm ▸ hfound.scanned hrun)
  · rcases hc.scanned with hscanned | hover
    · -- the file was scanned, but not in directories in which it includes `p`
      obtain ⟨⟨f, directories⟩, hscan, rfl⟩ := List.mem_map.1 hscanned
      exact .inr (.missed hc.given hscan hp (fun hin => hfound ⟨_, _, hscan, hin⟩) hfound hout)
    · exact .inr (.passed hover hp hfound hout)

namespace Inference

theorem mem_sourcesOf_singleton {s : Source} :
    s ∈ [[cs]].flatMap (sourcesOf 0) ↔ s.directory = 0 ∧ s.command ∈ cs := by
  rw [List.flatMap_singleton, mem_sourcesOf]
  constructor
  · rintro ⟨i, ds, hds, hdir, hs⟩
    obtain ⟨rfl, rfl⟩ : i = 0 ∧ cs = ds := by
      cases i with
      | zero => exact ⟨rfl, Option.some.inj hds⟩
      | succ i => cases hds
    exact ⟨hdir, hs⟩
  · rintro ⟨hdir, hs⟩
    exact ⟨0, cs, rfl, hdir, hs⟩

/-- What is inferred from one list of commands is for new files, in
absolute directories if the commands are. -/
theorem fresh_of_inferred (habs : ∀ c ∈ cs, c.directory.isAbsolute = true)
    (hout : out = (List.range 1).map (inferredFor h (run h [[cs]]))) (hc : c ∈ out.flatten) :
    c.directory.isAbsolute = true ∧ c.normalizedFile.IsCanonical ∧
      c.normalizedFile ∉ cs.map CompileCommand.normalizedFile := by
  rw [hout] at hc
  obtain ⟨f, hf, -, rfl⟩ := mem_inferred_iff.1 hc
  have hstart : AbsoluteSources ([[cs]].flatMap (sourcesOf 0)) :=
    fun s hs => habs _ (mem_sourcesOf_singleton.1 hs).2
  obtain ⟨hlender, hheader⟩ := found_induction
    (P := fun s => s.command.directory.isAbsolute = true) hstart _ (fun _ _ hl _ => hl) f hf
  rw [normalizedFile_of_found hstart hf]
  refine ⟨hlender, CompileCommand.isCanonical_of_mem_includedFiles hlender hheader, ?_⟩
  have hnew := (fresh_rounds h _ _).2 f hf
  rwa [← show [[cs]].flatten.flatten = cs by simp]

/-- **All that is inferred** from commands whose files have been scanned is
accounted for. -/
theorem accounted_of_inferred
    (habs : ∀ e, e ∈ cs ∨ e ∈ out.flatten → e.directory.isAbsolute = true)
    (hrun : IncludeGraph.DepthFirstAll h cs .start t)
    (hmains : ∀ c ∈ cs, c.normalizedFile ∈ t.scanned)
    (hout : out = (List.range 1).map (inferredFor h (run h [[cs]]))) (hc : c ∈ out.flatten) :
    Accounted h cs out t c := by
  -- sources are accounted for from the start, and so is what the run infers from them
  have hstart : ∀ s ∈ [[cs]].flatMap (sourcesOf 0),
      s.directory = 0 ∧ Accounted h cs out t s.command := fun s hs => by
    obtain ⟨hdir, hs⟩ := mem_sourcesOf_singleton.1 hs
    exact ⟨hdir, .inl hs, .inl (hmains _ hs)⟩
  have hlend : ∀ f ∈ found (run h [[cs]]),
      f.lender.directory = 0 ∧ Accounted h cs out t f.lender.command →
      f.header ∈ f.lender.command.includedFiles h →
      f.lender.directory = 0 ∧ Accounted h cs out t (f.source h).command :=
    fun f hf ⟨hdir, hlender⟩ hheader => ⟨hdir, hlender.lentTo habs hrun hheader (by
      rw [hout]
      exact mem_inferred_iff.2 ⟨f, hf, hdir ▸ Nat.one_pos, rfl⟩)⟩
  rw [hout] at hc
  obtain ⟨f, hf, -, rfl⟩ := mem_inferred_iff.1 hc
  obtain ⟨hlender, hheader⟩ := found_induction
    (P := fun s => s.directory = 0 ∧ Accounted h cs out t s.command) hstart _ hlend f hf
  exact (hlend f hf hlender hheader).2

end Inference

namespace HeaderIndex

/-- **The index covers an inference** but for what scanning each file only
once hides from it: `t` is the record of the walk that it is built from,
and the inferred commands that the scans of `t` do not overlook are those
for whose files the index has an answer. -/
theorem covers_inferred (hs : IsDatabase h source) (hcs : source.commands = .ok cs)
    (habs : ∀ c ∈ cs, c.directory.isAbsolute = true) :
    ∃ x out t, (build h source).value = .ok x ∧
      (inferHeaders h [[source.commands]]).value = .ok out ∧
      (IncludeGraph.walkAll h x.known cs).IsDepthFirst h x.known cs t ∧
      ∀ c ∈ out.flatten,
        (¬ Overlooked h cs out t c → ∃ d, x.find h source c.normalizedFile = .ok [d] ∧
          d.normalizedFile = c.normalizedFile) ∧
        (Overlooked h cs out t c → x.find h source c.normalizedFile = .ok []) := by
  have hanswers := hs.answersFor hcs
  obtain ⟨x, hx⟩ := exists_build h hanswers hcs
  obtain ⟨out, hout⟩ : ∃ out : List (List CompileCommand), out =
      (List.range 1).map (Inference.inferredFor h (Inference.run h [[cs]])) := ⟨_, rfl⟩
  obtain ⟨t, ht⟩ : ∃ t, (IncludeGraph.walkAll h x.known cs).IsDepthFirst h x.known cs t :=
    IncludeGraph.walkAll_isDepthFirst habs
  refine ⟨x, out, t, hx, inferHeaders_eq_ok.2 ⟨[[cs]], by rw [hcs]; rfl, hout⟩, ht, fun c hc => ?_⟩
  obtain ⟨hknown, hgraph⟩ := (build_eq_ok hanswers hcs).1 hx
  have hsound := isSound_walkAll (h := h) habs hknown
  have hclosed := IncludeGraph.Walk.IsClosed.walkAll (h := h) x.known habs
  have hscanned : ∀ p, p ∈ (IncludeGraph.walkAll h x.known cs).reached ↔ p ∈ t.scanned :=
    fun p => by rw [← ht.scanned, List.mem_reverse]
  have hgiven : ∀ e, e ∈ cs ∨ e ∈ out.flatten → e.directory.isAbsolute = true :=
    fun e he => he.elim (habs e) fun he => (Inference.fresh_of_inferred habs hout he).1
  have haccounted := Inference.accounted_of_inferred hgiven ((ht.recursion t).2 rfl)
    (fun d hd => (hscanned _).1 (hclosed.mains d hd)) hout hc
  obtain ⟨-, hcanonical, hnew⟩ := Inference.fresh_of_inferred habs hout hc
  rw [← hknown] at hnew
  constructor
  · -- the file has been scanned, so it is rooted and answered for
    intro hseen
    have hrooted := hsound.rooted _ ((hscanned _).2 (haccounted.scanned.resolve_right hseen))
    exact (find_of_rooted hanswers habs hknown hcanonical (hgraph ▸ hrooted) hnew).2
  · -- no edge leads to the file, so nothing includes it
    intro hover
    refine find_of_unincluded hcanonical (List.eq_nil_iff_forall_not_mem.2 fun f hf => ?_)
    rw [hgraph] at hf
    obtain ⟨⟨directories, hscan, hin⟩, -⟩ := (ht.edges _ f).1 hf
    exact hover.not_finds hgiven ⟨f, directories, hscan, hin⟩

/-! ## A source that another one includes -/

namespace ScannedOnce

open Text

/-- A source that includes another one, which includes a header. -/
def tree (first second : ByteArray) : FileTree where
  entries := [(["w"], .directory), (["w", "a.c"], .file first), (["w", "b.c"], .file second),
    (["w", "inc"], .directory), (["w", "inc", "y.h"], .file "".toUTF8)]
  distinct := by simp
  proper := by simp; decide
  closed := by simp

def firstLine : List UInt8 := utf8 "#include \"b.c\"\n".toList

def secondLine : List UInt8 := utf8 "#include <y.h>\n".toList

def host : Host := ⟨tree firstLine.toByteArray secondLine.toByteArray, some [], none, none, none⟩

/-- The command of the including source names no search directory. -/
def first : CompileCommand := ⟨⟨"/w"⟩, ⟨"a.c"⟩, ["cc", "-c", "a.c"], none⟩

/-- The command of the included source names the one of the header. -/
def second : CompileCommand := ⟨⟨"/w"⟩, ⟨"b.c"⟩, ["cc", "-Iinc", "-c", "b.c"], none⟩

def database : Database := .memory [first, second]

/-- The same commands, that of the included source first. -/
def swapped : Database := .memory [second, first]

theorem normalizedFile_first : first.normalizedFile = ⟨"/w/a.c"⟩ := by decide

theorem normalizedFile_second : second.normalizedFile = ⟨"/w/b.c"⟩ := by decide

theorem ofContent_lines : Include.ofContent firstLine = [⟨.quoted, "b.c"⟩] ∧
    Include.ofContent secondLine = [⟨.angled, "y.h"⟩] := by
  decide +kernel

theorem locate_first :
    host.locate ⟨"/w/a.c"⟩ = .ok (["w", "a.c"], .file firstLine.toByteArray) := by
  rw [show (⟨"/w/a.c"⟩ : Path) = (Place.absolute ["w", "a.c"]).toPath by decide]
  exact Host.locate_toPath (by simp [host, tree])

theorem locate_second :
    host.locate ⟨"/w/b.c"⟩ = .ok (["w", "b.c"], .file secondLine.toByteArray) := by
  rw [show (⟨"/w/b.c"⟩ : Path) = (Place.absolute ["w", "b.c"]).toPath by decide]
  exact Host.locate_toPath (by simp [host, tree])

theorem locate_header :
    host.locate ⟨"/w/inc/y.h"⟩ = .ok (["w", "inc", "y.h"], .file "".toUTF8) := by
  rw [show (⟨"/w/inc/y.h"⟩ : Path) = (Place.absolute ["w", "inc", "y.h"]).toPath by decide]
  exact Host.locate_toPath (by simp [host, tree])

theorem includesOf_first : host.includesOf ⟨"/w/a.c"⟩ = [⟨.quoted, "b.c"⟩] := by
  simp only [Host.includesOf, Host.read, locate_first, toList_toByteArray, ofContent_lines.1]

theorem includesOf_second : host.includesOf ⟨"/w/b.c"⟩ = [⟨.angled, "y.h"⟩] := by
  simp only [Host.includesOf, Host.read, locate_second, toList_toByteArray, ofContent_lines.2]

/-- The one source includes the other, which stands beside it. -/
theorem file?_first : Include.file? host ⟨.quoted, "b.c"⟩ ⟨"/w/a.c"⟩ first.searchDirectories =
    some ⟨"/w/b.c"⟩ := by
  have hfile : host.isFile ((⟨"/w"⟩ : Path).join ⟨"b.c"⟩) = true := by
    rw [show (⟨"/w"⟩ : Path).join ⟨"b.c"⟩ = ⟨"/w/b.c"⟩ by decide, Host.isFile, locate_second]
  have hplaces : Include.places ⟨.quoted, "b.c"⟩ ⟨"/w/a.c"⟩ first.searchDirectories = [⟨"/w"⟩] := by
    decide
  rw [Include.file?_of_isFile hplaces hfile]
  decide

theorem includedFiles_second : second.includedFiles host = [⟨"/w/inc/y.h"⟩] := by
  have hread : host.read second.normalizedFile = .ok secondLine.toByteArray := by
    rw [normalizedFile_second, Host.read, locate_second]
  have hplaces : Include.places ⟨.angled, "y.h"⟩ second.normalizedFile second.searchDirectories =
      [⟨"/w/inc"⟩] := by
    decide
  have hfile : host.isFile ((⟨"/w/inc"⟩ : Path).join ⟨"y.h"⟩) = true := by
    rw [show (⟨"/w/inc"⟩ : Path).join ⟨"y.h"⟩ = ⟨"/w/inc/y.h"⟩ by decide, Host.isFile,
      locate_header]
  rw [CompileCommand.includedFiles_of_isFile hread
    (by rw [toList_toByteArray, ofContent_lines.2]) hplaces hfile]
  decide

/-- In either order the header gets a command. -/
theorem exists_inferred {out : List (List CompileCommand)}
    (hcs : ∀ c, c ∈ cs ↔ c ∈ [first, second])
    (hout : (inferHeaders host [[.ok cs]]).value = .ok out) :
    ∃ c ∈ out.flatten, c.normalizedFile = ⟨"/w/inc/y.h"⟩ := by
  have hread : LayeredDatabase.contents host [[.memory cs]] = [[cs]].map (List.map .ok) := rfl
  have hholds : ∀ i c, LayeredDatabase.Holds host [[.memory cs]] i c ↔ i = 0 ∧ c ∈ cs :=
    fun i c => (LayeredDatabase.mem_sources (s := ⟨i, c⟩) hread).symm.trans
      Inference.mem_sourcesOf_singleton
  have habs : ∀ c ∈ [first, second], c.directory.isAbsolute = true := by decide
  have hdir : LayeredDatabase.IsAbsolute host [[.memory cs]] :=
    fun i c hc => habs c ((hcs c).1 ((hholds i c).1 hc).2)
  have hsecond : second ∈ cs := (hcs second).2 (List.mem_cons_of_mem _ (List.mem_cons_self ..))
  obtain ⟨c, hc, hfile⟩ := LayeredDatabase.covers_includedFiles (n := 1) hdir
    (List.forall_mem_singleton.2 rfl) hout (.inl ⟨0, (hholds 0 second).2 ⟨rfl, hsecond⟩⟩)
    (includedFiles_second ▸ List.mem_singleton_self _)
  refine ⟨c, hc.resolve_left fun ⟨i, hc⟩ => ?_, hfile⟩
  have hnone : ∀ c ∈ [first, second], c.normalizedFile ≠ ⟨"/w/inc/y.h"⟩ := by decide
  exact hnone c ((hcs c).1 ((hholds i c).1 hc).2) hfile

/-- Both sources are scanned for the command of the first one, without
search directories, so the walk finds no header. -/
theorem graph_walkAll :
    (IncludeGraph.walkAll host [⟨"/w/a.c"⟩, ⟨"/w/b.c"⟩] [first, second]).graph = [] := by
  have hnone : Include.file? host ⟨.angled, "y.h"⟩ ⟨"/w/b.c"⟩ first.searchDirectories = none :=
    Include.file?_eq_none (by decide)
  have hinner : host.includesOf ⟨"/w/b.c"⟩ ≠ [] := by
    rw [includesOf_second]
    exact List.cons_ne_nil _ _
  obtain ⟨n, hn⟩ : ∃ n, IncludeGraph.reachLimit host = n + 1 :=
    Nat.exists_eq_succ_of_ne_zero (Nat.ne_of_gt (Nat.pow_pos (Nat.succ_pos _)))
  have hsecond : ∀ reached : List Path, second.normalizedFile ∈ ⟨"/w/b.c"⟩ :: reached :=
    fun reached => normalizedFile_second ▸ List.mem_cons_self ..
  rw [IncludeGraph.walkAll, List.foldl_cons, List.foldl_cons, List.foldl_nil,
    IncludeGraph.walkCommand_enter (c := first) List.not_mem_nil, normalizedFile_first,
    includesOf_first, hn, IncludeGraph.walkStack_enter file?_first (by decide) hinner,
    includesOf_second, IncludeGraph.walkStack_miss hnone, IncludeGraph.walkStack_done,
    IncludeGraph.walkStack_done, IncludeGraph.walkStack_nil,
    IncludeGraph.walkCommand_again (c := second) (hsecond _)]
  decide

end ScannedOnce

open ScannedOnce in
/-- With the included source first, it is scanned in its own search
directories, so the header that gets a command is answered for. -/
theorem covers_inferred_scanned_first :
    IsDatabase host (swapped.answers host) ∧ swapped.commands host = .ok [second, first] ∧
    (∀ c ∈ [second, first], c.directory.isAbsolute = true) ∧
      ∃ x out, (build host (swapped.answers host)).value = .ok x ∧
        (inferHeaders host [[swapped.commands host]]).value = .ok out ∧
        ∃ c ∈ out.flatten, c.normalizedFile = ⟨"/w/inc/y.h"⟩ ∧
          ∃ d, x.find host (swapped.answers host) c.normalizedFile = .ok [d] ∧
            d.normalizedFile = c.normalizedFile := by
  have habs : ∀ c ∈ [second, first], c.directory.isAbsolute = true := by decide
  obtain ⟨x, out, t, hx, hout, ht, hcovers⟩ := covers_inferred (.single swapped) rfl habs
  have hsame : ∀ c, c ∈ [second, first] ↔ c ∈ [first, second] := by simp [or_comm]
  obtain ⟨c, hc, hfile⟩ := exists_inferred hsame hout
  refine ⟨.single swapped, rfl, habs, x, out, hx, hout, c, hc, hfile, (hcovers c hc).1 ?_⟩
  intro hover
  have hout' := Except.ok.inj <|
    hout.symm.trans (inferHeaders_eq_ok.2 ⟨[[[second, first]]], rfl, rfl⟩)
  refine hover.not_finds (fun e he => he.elim (habs e) fun he =>
    (Inference.fresh_of_inferred habs hout' he).1) ?_
  rw [hfile]
  refine ⟨_, _, ((ht.recursion t).2 rfl).mem_scans_of_first, ?_⟩
  rw [← CompileCommand.includedFiles_eq, includedFiles_second]
  exact List.mem_singleton_self _

open ScannedOnce in
/-- The header that the included source finds in its own search directories
gets a command, and the index has none for it. -/
theorem not_covered_when_scanned_once :
    (∀ c ∈ [first, second], c.directory.isAbsolute = true) ∧
      ∃ x out, (build host (database.answers host)).value = .ok x ∧
        (inferHeaders host [[database.commands host]]).value = .ok out ∧
        ∃ c ∈ out.flatten, c.normalizedFile = ⟨"/w/inc/y.h"⟩ ∧
          x.find host (database.answers host) c.normalizedFile = .ok [] := by
  have habs : ∀ c ∈ [first, second], c.directory.isAbsolute = true := by decide
  have hanswers : (database.answers host).AnswersFor [first, second] := Database.answersFor rfl
  obtain ⟨x, hx⟩ := exists_build host hanswers rfl
  obtain ⟨out, hout⟩ : ∃ out, (inferHeaders host [[database.commands host]]).value = .ok out :=
    ⟨_, inferHeaders_eq_ok.2 ⟨[[[first, second]]], rfl, rfl⟩⟩
  obtain ⟨c, hc, hfile⟩ := exists_inferred (fun _ => Iff.rfl) hout
  refine ⟨habs, x, out, hx, hout, c, hc, hfile, ?_⟩
  -- the graph of the index is empty
  obtain ⟨hknown, hgraph⟩ := (build_eq_ok hanswers rfl).1 hx
  have hnone : x.graph = [] := by
    rw [hgraph, hknown]
    exact graph_walkAll
  have hcanonical : (⟨"/w/inc/y.h"⟩ : Path).IsCanonical := by
    unfold Path.IsCanonical
    decide
  rw [hfile]
  exact find_of_unincluded hcanonical (by rw [hnone]; rfl)

end HeaderIndex

end CompileCommands
