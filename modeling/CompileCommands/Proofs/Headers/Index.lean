import CompileCommands.Headers.Index
import CompileCommands.Proofs.Database.Answers
import CompileCommands.Proofs.Headers.Closest
import CompileCommands.Proofs.Headers.Inference
import CompileCommands.Proofs.Headers.Walk
import CompileCommands.Proofs.Layers.Reading
/-!
# What the index of included files answers

A database of any kind lists the files of the commands that it lists, and
finds for each of them some of these commands (`IsDatabase.answersFor`).
The index over it therefore has exactly one command for every file that
is rooted in its graph and has no command of its own
(`find_of_rooted`), and a file that it lists is such a file
(`answers_every_file`).
-/

namespace CompileCommands

variable {h : Host} {source : Answers} {cs : List CompileCommand} {p q : Path}

/-! ## Sources that answer for what they hold -/

namespace Answers

/-- The answers of several sources, one after the other. -/
def aggregate : List Answers → Answers
  | [] => ⟨fun _ => .ok [], .ok [], .ok []⟩
  | a :: as =>
    ⟨fun p => Database.chain (a.find p) ((aggregate as).find p),
      Database.chain a.files (aggregate as).files,
      Database.chain a.commands (aggregate as).commands⟩

/-- The answers of a database of any kind: of a single one, of one in
layers, or of one that is put together from such. -/
inductive IsDatabase (h : Host) : Answers → Prop
  | single (d : Database) : IsDatabase h (d.answers h)
  | layered (s : LayeredDatabase) : IsDatabase h (s.answers h)
  | aggregate {parts : List Answers} :
      (∀ a ∈ parts, IsDatabase h a) → IsDatabase h (aggregate parts)

/-- Whether what is found for a file is some of the commands for it, and
not nothing if there are any. -/
def Finds (cs : List CompileCommand) (target : Path) (found : List CompileCommand) : Prop :=
  (∀ c ∈ found, c ∈ cs ∧ c.normalizedFile = target) ∧
    (target ∈ cs.map CompileCommand.normalizedFile → found ≠ [])

theorem finds_matching (cs : List CompileCommand) (target : Path) :
    Finds cs target (Database.matching target cs) := by
  refine ⟨fun c hc => ?_, fun hp => ?_⟩
  · obtain ⟨hc, hfile⟩ := List.mem_filter.1 hc
    exact ⟨hc, eq_of_beq hfile⟩
  · obtain ⟨c, hc, hfile⟩ := List.mem_map.1 hp
    exact List.ne_nil_of_mem (List.mem_filter.2 ⟨hc, beq_iff_eq.2 hfile⟩)

/-- Nothing but what there is among later commands. -/
theorem Finds.append_left {xs ys found : List CompileCommand} (hxs : Finds xs p [])
    (hys : Finds ys p found) : Finds (xs ++ ys) p found := by
  refine ⟨fun c hc => ⟨List.mem_append_right _ (hys.1 c hc).1, (hys.1 c hc).2⟩, fun hp => ?_⟩
  rw [List.map_append] at hp
  exact hys.2 ((List.mem_append.1 hp).resolve_left fun hp => hxs.2 hp rfl)

/-- What is found among some commands is found among more. -/
theorem Finds.append_right {xs ys found : List CompileCommand} (hxs : Finds xs p found)
    (hne : found ≠ []) : Finds (xs ++ ys) p found :=
  ⟨fun c hc => ⟨List.mem_append_left _ (hxs.1 c hc).1, (hxs.1 c hc).2⟩, fun _ => hne⟩

theorem Finds.append {xs ys found more : List CompileCommand} (hxs : Finds xs p found)
    (hys : Finds ys p more) : Finds (xs ++ ys) p (found ++ more) := by
  constructor
  · refine List.forall_mem_append.2 ⟨fun c hc => ?_, fun c hc => ?_⟩
    · exact ⟨List.mem_append_left _ (hxs.1 c hc).1, (hxs.1 c hc).2⟩
    · exact ⟨List.mem_append_right _ (hys.1 c hc).1, (hys.1 c hc).2⟩
  · intro hp hnil
    obtain ⟨rfl, rfl⟩ := List.append_eq_nil_iff.1 hnil
    rw [List.map_append] at hp
    exact (List.mem_append.1 hp).elim (fun hp => hxs.2 hp rfl) fun hp => hys.2 hp rfl

/-- Whether a source answers for the commands that it holds. -/
structure AnswersFor (source : Answers) (cs : List CompileCommand) : Prop where
  files : source.files = .ok (cs.map CompileCommand.normalizedFile)
  find : ∀ p : Path, p.isAbsolute = true →
    ∃ found, source.find p = .ok found ∧ Finds cs p.normalize found

end Answers

open Answers

theorem Database.answersFor {d : Database} (hcs : d.commands h = .ok cs) :
    (d.answers h).AnswersFor cs where
  files := by
    change d.files h = _
    rw [files_eq_map_commands, hcs]
    rfl
  find p hp := by
    refine ⟨matching p.normalize cs, ?_, finds_matching cs p.normalize⟩
    change d.find h p = _
    rw [find_of_isAbsolute hp, hcs]
    rfl

namespace LayeredDatabase

/-- **The first layer that knows a file** finds it. -/
theorem exists_findIn {layers : List Layer} {target : Path}
    (hmatch : ∀ l ∈ layers,
      Database.findAll h p l = (Database.commandsAll h l).map (Database.matching target))
    (hcs : Database.commandsAll h layers.flatten = .ok cs) :
    ∃ found, findIn h p layers = .ok found ∧ Finds cs target found := by
  induction layers generalizing cs with
  | nil =>
    cases hcs
    exact ⟨[], rfl, fun c hc => absurd hc List.not_mem_nil, fun hp => absurd hp List.not_mem_nil⟩
  | cons l ls ih =>
    rw [List.flatten_cons, Database.commandsAll_append] at hcs
    obtain ⟨xs, ys, hxs, hys, rfl⟩ := Database.chain_eq_ok.1 hcs
    obtain ⟨hmatchl, hmatch⟩ := List.forall_mem_cons.1 hmatch
    have hl : Database.findAll h p l = .ok (Database.matching target xs) := by
      rw [hmatchl, hxs]
      rfl
    have hfinds := finds_matching xs target
    rw [findIn]
    cases hfound : Database.matching target xs with
    | nil =>
      obtain ⟨found, hls, hfound'⟩ := ih hmatch hys
      rw [hfound] at hl hfinds
      exact ⟨found, by rw [hl]; exact hls, hfinds.append_left hfound'⟩
    | cons c found =>
      rw [hfound] at hl hfinds
      exact ⟨c :: found, by rw [hl], hfinds.append_right (List.cons_ne_nil _ _)⟩

theorem answersFor {s : LayeredDatabase} (hcs : s.commands h false = .ok cs) :
    (s.answers h).AnswersFor cs := by
  have hall : Database.commandsAll h s.layers.flatten = .ok cs :=
    (commands_eq_commandsAll _ _).symm.trans hcs
  constructor
  · change s.files h false = _
    rw [files, Database.filesAll_eq_map_commandsAll, hall]
    rfl
  · intro p hp
    obtain ⟨found, hfound, hfinds⟩ :=
      exists_findIn (fun l _ => Database.findAll_of_isAbsolute hp l) hall
    refine ⟨found, ?_, hfinds⟩
    change s.find h false p = _
    rw [find, hfound]
    rfl

end LayeredDatabase

/-- **A database of any kind answers for what it holds.** -/
theorem Answers.IsDatabase.answersFor (hs : IsDatabase h source) (hcs : source.commands = .ok cs) :
    source.AnswersFor cs := by
  induction hs generalizing cs with
  | single d => exact Database.answersFor hcs
  | layered s => exact LayeredDatabase.answersFor hcs
  | @aggregate parts hparts ih =>
    induction parts generalizing cs with
    | nil =>
      cases hcs
      exact ⟨rfl, fun p _ => ⟨[], rfl, fun c hc => absurd hc List.not_mem_nil,
        fun hp => absurd hp List.not_mem_nil⟩⟩
    | cons a parts ih' =>
      obtain ⟨xs, ys, hxs, hys, rfl⟩ := Database.chain_eq_ok.1 hcs
      have ha := ih a (List.mem_cons_self ..) hxs
      have hrest := ih' (fun b hb => hparts b (List.mem_cons_of_mem _ hb))
        (fun b hb => ih b (List.mem_cons_of_mem _ hb)) hys
      refine ⟨Database.chain_eq_ok.2 ⟨_, _, ha.files, hrest.files, List.map_append⟩,
        fun p hp => ?_⟩
      obtain ⟨found, hfound, hfinds⟩ := ha.find p hp
      obtain ⟨more, hmore, hfinds'⟩ := hrest.find p hp
      exact ⟨found ++ more, Database.chain_eq_ok.2 ⟨_, _, hfound, hmore, rfl⟩,
        hfinds.append hfinds'⟩

/-! ## The index -/

namespace HeaderIndex

variable {x : HeaderIndex}

/-- An index can be built of all that can be read. -/
theorem exists_build (h : Host) (hs : source.AnswersFor cs) (hcs : source.commands = .ok cs) :
    ∃ x, (build h source).value = .ok x := by
  simp only [build, hs.files, hcs]
  exact ⟨_, rfl⟩

/-- What the index is built from. -/
theorem build_eq_ok (hs : source.AnswersFor cs) (hcs : source.commands = .ok cs) :
    (build h source).value = .ok x ↔ x.known = cs.map CompileCommand.normalizedFile ∧
      x.graph = (IncludeGraph.walkAll h x.known cs).graph := by
  simp only [build, hs.files, hcs]
  constructor
  · intro hx
    obtain rfl := Except.ok.inj hx
    exact ⟨rfl, rfl⟩
  · rintro ⟨hknown, hgraph⟩
    rw [← hknown, ← hgraph]

/-- The index stands for what its walk has reached. -/
theorem isSound_walkAll (habs : ∀ c ∈ cs, c.directory.isAbsolute = true)
    (hknown : x.known = cs.map CompileCommand.normalizedFile) :
    (IncludeGraph.walkAll h x.known cs).IsSound x.known :=
  .walkAll habs fun _ hc => hknown ▸ List.mem_map_of_mem hc

/-- **A rooted file without a command has exactly one answer**, lent by a
file with one. -/
theorem find_of_rooted (hs : source.AnswersFor cs)
    (habs : ∀ c ∈ cs, c.directory.isAbsolute = true)
    (hknown : x.known = cs.map CompileCommand.normalizedFile) (hp : p.IsCanonical)
    (hrooted : IncludeGraph.Rooted x.known x.graph p) (hnew : p ∉ x.known) :
    (∃ q ∈ x.known, x.lender? p = some q) ∧
      ∃ c, x.find h source p = .ok [c] ∧ c.normalizedFile = p := by
  obtain ⟨q, hq, hlender⟩ := IncludeGraph.closest?_of_rooted hp hrooted hnew
  refine ⟨⟨q, hq, hlender⟩, ?_⟩
  have hlogical : h.logicalPath p = p := Host.logicalPath_of_isCanonical hp
  -- the lender is the file of a command, and so found under its own name
  have hq' : q ∈ cs.map CompileCommand.normalizedFile := hknown ▸ hq
  obtain ⟨d, hd, rfl⟩ := List.mem_map.1 hq'
  have hcanonical := CompileCommand.isCanonical_normalizedFile (habs d hd)
  obtain ⟨found, hfound, hmem, hne⟩ := hs.find _ hcanonical.1
  rw [hcanonical.2] at hne
  obtain ⟨e, found, rfl⟩ := List.exists_cons_of_ne_nil (hne hq')
  refine ⟨e.lentTo h p, ?_, ?_⟩
  · have hlender' : x.lender? p = some d.normalizedFile := hlender
    simp only [find, hlogical, hlender', hfound]
    rfl
  · exact CompileCommand.normalizedFile_lentTo (habs e (hmem e (List.mem_cons_self ..)).1) hp

/-- A file that nothing includes has no answer. -/
theorem find_of_unincluded (hp : p.IsCanonical) (hnone : x.graph.includers p = []) :
    x.find h source p = .ok [] := by
  have hlender : x.lender? p = none := IncludeGraph.closest?_of_unincluded hp hnone
  rw [find, Host.logicalPath_of_isCanonical hp]
  simp only [hlender]

/-- **An answer is a command for the file that was asked for**, whatever
its lender, as long as lenders have absolute paths. -/
theorem answer_of_find (hp : (h.logicalPath p).IsCanonical)
    (hsource : ∀ q found, source.find q = .ok found →
      ∀ c ∈ found, c.normalizedFile.isAbsolute = true)
    (hcs : x.find h source p = .ok cs) :
    cs.length ≤ 1 ∧ ∀ c ∈ cs, c.normalizedFile = h.logicalPath p := by
  cases hlender : x.lender? (h.logicalPath p) with
  | none =>
    simp only [find, hlender] at hcs
    cases hcs
    exact ⟨Nat.zero_le _, fun c hc => absurd hc List.not_mem_nil⟩
  | some q =>
    simp only [find, hlender] at hcs
    cases hfound : source.find q with
    | error e => rw [hfound] at hcs; cases hcs
    | ok found =>
      rw [hfound] at hcs
      cases hcs
      refine ⟨by rw [List.length_map]; exact List.length_take_le _ _, fun c hc => ?_⟩
      obtain ⟨d, hd, rfl⟩ := List.mem_map.1 hc
      exact CompileCommand.normalizedFile_lentTo_of_isAbsolute_normalizedFile
        (hsource q found hfound d (List.mem_of_mem_take hd)) hp

/-- A file is asked for by its logical path. -/
theorem find_logicalPath (hp : (h.logicalPath p).IsCanonical) :
    x.find h source (h.logicalPath p) = x.find h source p := by
  rw [find, find, Host.logicalPath_of_isCanonical hp]

/-- The index has an answer wherever its source has. -/
theorem exists_find (h : Host) (x : HeaderIndex)
    (hsource : ∀ q, ∃ found, source.find q = .ok found) (p : Path) :
    ∃ cs, x.find h source p = .ok cs := by
  cases hlender : x.lender? (h.logicalPath p) with
  | none => exact ⟨[], by simp only [find, hlender]⟩
  | some q =>
    obtain ⟨found, hfound⟩ := hsource q
    exact ⟨_, by simp only [find, hlender, hfound]; rfl⟩

/-- One answer for every file is one command for every file. -/
theorem commands_of_forall_find
    (hfind : ∀ f ∈ x.files, ∃ c, x.find h source f = .ok [c] ∧ c.normalizedFile = f) :
    ∃ ds, x.commands h source = .ok ds ∧
      List.Forall₂ (fun f c => x.find h source f = .ok [c] ∧ c.normalizedFile = f) x.files ds := by
  have : Nonempty CompileCommand := ⟨⟨.empty, .empty, [], none⟩⟩
  choose! answer hanswer using hfind
  refine ⟨x.files.map answer, ?_, List.forall₂_map_right_iff.2 (List.forall₂_same.2 hanswer)⟩
  have hall : (x.files.mapM fun p => x.find h source p) =
      .ok (x.files.map fun p => [answer p]) := by
    rw [mapM_eq_ok, List.map_map]
    exact List.map_congr_left fun f hf => (hanswer f hf).1
  rw [commands, hall]
  have hflat : (x.files.map fun p => [answer p]).flatten = x.files.map answer := by
    rw [← List.flatMap_def]
    exact (List.map_eq_flatMap ..).symm
  exact congrArg Except.ok hflat

/-- **Every file of the index has exactly one answer.** None of them has a
command in the database, each borrows from a file of the database, and all
commands of the index are one for each of its files, in their order. -/
theorem answers_every_file (hs : IsDatabase h source) (hcs : source.commands = .ok cs)
    (habs : ∀ c ∈ cs, c.directory.isAbsolute = true) (hx : (build h source).value = .ok x) :
    (∃ known, source.files = .ok known ∧ ∀ f ∈ x.files, f ∉ known ∧
      (∃ q ∈ known, x.lender? f = some q) ∧
      ∃ c, x.find h source f = .ok [c] ∧ c.normalizedFile = f) ∧
    (∃ ds, x.commands h source = .ok ds ∧ List.Forall₂
      (fun f c => x.find h source f = .ok [c] ∧ c.normalizedFile = f) x.files ds) ∧
    x.files.Nodup := by
  have hanswers := hs.answersFor hcs
  obtain ⟨hknown, hgraph⟩ := (build_eq_ok hanswers hcs).1 hx
  have hsound := isSound_walkAll (h := h) habs hknown
  generalize IncludeGraph.walkAll h x.known cs = w at hgraph hsound
  have hfiles : x.files = w.graph.files := congrArg IncludeGraph.files hgraph
  have hall : ∀ f ∈ x.files, f ∉ x.known ∧ (∃ q ∈ x.known, x.lender? f = some q) ∧
      ∃ c, x.find h source f = .ok [c] ∧ c.normalizedFile = f := fun f hf => by
    rw [hfiles] at hf
    obtain ⟨hnew, hcanonical⟩ := hsound.unknown f hf
    obtain ⟨q, hq⟩ := hsound.included f hf
    have hrooted := IncludeGraph.Rooted.included hq (hsound.rooted q (hsound.reached f q hq))
    exact ⟨hnew, find_of_rooted hanswers habs hknown hcanonical (hgraph ▸ hrooted) hnew⟩
  refine ⟨⟨x.known, hknown ▸ hanswers.files, hall⟩, ?_, hfiles ▸ hsound.nodup⟩
  exact commands_of_forall_find fun f hf => (hall f hf).2.2

/-- A database of one source, whose header it does not list. -/
def cycleSource : Answers := (Database.memory [Cycle.command]).answers Cycle.host

theorem answers_every_file_cycle :
    ∃ x, (build Cycle.host cycleSource).value = .ok x ∧
      ⟨"/p/b.h"⟩ ∈ x.files ∧
      (∃ known, cycleSource.files = .ok known ∧ ∀ f ∈ x.files, f ∉ known ∧
        (∃ q ∈ known, x.lender? f = some q) ∧
        ∃ c, x.find Cycle.host cycleSource f = .ok [c] ∧ c.normalizedFile = f) ∧
      (∃ ds, x.commands Cycle.host cycleSource = .ok ds ∧ List.Forall₂
        (fun f c => x.find Cycle.host cycleSource f = .ok [c] ∧ c.normalizedFile = f)
        x.files ds) ∧
      x.files.Nodup := by
  have habs : ∀ c ∈ [Cycle.command], c.directory.isAbsolute = true := by decide
  have hanswers : cycleSource.AnswersFor [Cycle.command] := Database.answersFor rfl
  obtain ⟨x, hx⟩ := exists_build Cycle.host hanswers rfl
  refine ⟨x, hx, ?_, answers_every_file (.single _) rfl habs hx⟩
  -- the source includes the header, so the walk has reached it
  obtain ⟨hknown, hgraph⟩ := (build_eq_ok hanswers rfl).1 hx
  have hreached : ⟨"/p/b.h"⟩ ∈ (IncludeGraph.walkAll Cycle.host x.known [Cycle.command]).reached :=
    (IncludeGraph.Walk.IsClosed.walkAll x.known habs).reached_of_singleton
      (Cycle.includedFiles_command ▸ List.mem_singleton_self _)
  have hfile := (isSound_walkAll habs hknown).mem_files hreached (by rw [hknown]; decide)
  rw [← hgraph] at hfile
  exact hfile

end HeaderIndex

end CompileCommands
