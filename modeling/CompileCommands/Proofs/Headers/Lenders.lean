import CompileCommands.Proofs.FirstOfEach
import CompileCommands.Proofs.Greatest
import CompileCommands.Proofs.Headers.Closure
/-!
# Who lends a header its command

What a round decides while it goes through its sources, taking a header
over from one lender to the next, can be said without going through
them: the new headers in the order in which they are first met, and for
each the first of the most alike of the sources that include it
(`Stage.lender?`). Fold and selection agree (`lender?_of_mem_round`),
round after round (`exists_stage_of_found`), so whatever gets a command
gets it from the best of the first stage that includes it
(`inferHeaders_from_best`).
-/

namespace CompileCommands

namespace Inference

variable {h : Host} {known : List Path} {frontier : List Source} {fs : List Finding}
variable {f : Finding} {p q : Path} {s : Source} {os : List (Path × Source)}

/-- How alike the main file of a source and `p` are. -/
def Source.alike (p : Path) (s : Source) : Int := s.command.normalizedFile.similarity p

/-- The source that `p` becomes by borrowing from `s`. -/
def Source.lentTo (h : Host) (s : Source) (p : Path) : Source :=
  ⟨s.directory, s.command.lentTo h p⟩

/-! ## Stages -/

/-- What a round starts from: the files that need no command any more, and
the sources to scan. -/
structure Stage where
  known : List Path
  frontier : List Source

namespace Stage

/-- The new headers that the sources include, in the order in which they
are first met. -/
def headers (h : Host) (stage : Stage) : List Path :=
  firstOfEach id stage.known (stage.frontier.flatMap fun s => s.command.includedFiles h)

/-- The sources that include `p`, in order. -/
def includers (h : Host) (stage : Stage) (p : Path) : List Source :=
  stage.frontier.filter fun s => p ∈ s.command.includedFiles h

/-- The first of the most alike of the sources that include `p`. -/
def lender? (h : Host) (stage : Stage) (p : Path) : Option Source :=
  firstGreatest? (Source.alike p) (stage.includers h p)

/-- What the new headers become, in the order in which they are first
met. -/
def derived (h : Host) (stage : Stage) : List Source :=
  (stage.headers h).filterMap fun p => (stage.lender? h p).map fun s => s.lentTo h p

/-- The order by build directory. -/
def byDirectory (a b : Source) : Bool := a.directory ≤ b.directory

/-- The stage of the next round: what the headers have become, ordered by
build directory. -/
def next (h : Host) (stage : Stage) : Stage where
  known := stage.headers h ++ stage.known
  frontier := (stage.derived h).mergeSort byDirectory

/-- The stage after the given number of rounds. -/
def after (h : Host) (stage : Stage) (r : Nat) : Stage := (next h)^[r] stage

/-- The stage that a run over layers starts from. -/
def start (layers : List (List (List CompileCommand))) : Stage where
  known := layers.flatten.flatten.map CompileCommand.normalizedFile
  frontier := layers.flatMap (sourcesOf 0)

theorem byDirectory_trans (a b c : Source) (hab : byDirectory a b = true)
    (hbc : byDirectory b c = true) : byDirectory a c = true := by
  simp only [byDirectory, decide_eq_true_eq] at *
  omega

theorem byDirectory_total (a b : Source) : (byDirectory a b || byDirectory b a) = true := by
  simp only [byDirectory, Bool.or_eq_true, decide_eq_true_eq]
  omega

/-- **Ordering by build directory** puts smaller numbers first. -/
theorem pairwise_next (h : Host) (stage : Stage) :
    (stage.next h).frontier.Pairwise fun a b => a.directory ≤ b.directory := by
  have hsorted := List.pairwise_mergeSort byDirectory_trans byDirectory_total (stage.derived h)
  exact hsorted.imp fun hab => of_decide_eq_true hab

/-- **And is stable**: what comes from one directory keeps its order. -/
theorem filter_next (h : Host) (stage : Stage) (i : Nat) :
    (stage.next h).frontier.filter (fun s => s.directory = i) =
      (stage.derived h).filter fun s => s.directory = i := by
  have hsame : ((stage.derived h).filter fun s => s.directory = i).Pairwise
      fun a b => byDirectory a b = true := by
    refine List.pairwise_iff_forall_sublist.2 fun {a b} hab => ?_
    have ha := (List.mem_filter.1 (hab.subset (List.mem_cons_self ..))).2
    have hb := (List.mem_filter.1 (hab.subset (List.mem_cons_of_mem _ (List.mem_cons_self ..)))).2
    simp only [byDirectory, decide_eq_true_eq] at *
    omega
  have hsub := List.sublist_mergeSort byDirectory_trans byDirectory_total hsame
    List.filter_sublist
  have hlength : ((stage.next h).frontier.filter fun s => s.directory = i).length =
      ((stage.derived h).filter fun s => s.directory = i).length :=
    ((List.mergeSort_perm _ _).filter _).length_eq
  have hfilter := hsub.filter fun s => decide (s.directory = i)
  rw [List.filter_filter] at hfilter
  simp only [Bool.and_self] at hfilter
  exact (hfilter.eq_of_length hlength.symm).symm

end Stage

/-! ## Taking one offer -/

/-- The sources that `p` has been offered by, in order. -/
def offeredBy (os : List (Path × Source)) (p : Path) : List Source :=
  (os.filter fun o => o.1 = p).map Prod.snd

theorem offeredBy_concat (os : List (Path × Source)) (p q : Path) (s : Source) :
    offeredBy (os ++ [(p, s)]) q = if p = q then offeredBy os q ++ [s] else offeredBy os q := by
  rw [offeredBy, List.filter_append, List.map_append]
  by_cases hpq : p = q
  · rw [if_pos hpq, List.filter_cons_of_pos (by simpa using hpq)]
    rfl
  · rw [if_neg hpq, List.filter_cons_of_neg (by simpa using hpq)]
    exact List.append_nil _

/-- **What becomes of an offer**: another header keeps its finding, a new
one is found, and one that was found before goes to the more alike. -/
theorem mem_consider_cases (hfs : (fs.map Finding.header).Nodup) (hf : f ∈ consider fs (p, s)) :
    (f ∈ fs ∧ f.header ≠ p) ∨ (p ∉ fs.map Finding.header ∧ f = ⟨p, s.alike p, s⟩) ∨
      ∃ g ∈ fs, g.header = p ∧ f = if g.score < s.alike p then ⟨p, s.alike p, s⟩ else g := by
  induction fs with
  | nil => exact .inr (.inl ⟨List.not_mem_nil, List.mem_singleton.1 hf⟩)
  | cons g fs ih =>
    rw [List.map_cons, List.nodup_cons] at hfs
    by_cases hg : g.header = p
    · rw [consider, if_pos hg] at hf
      rcases List.mem_cons.1 hf with hf | hf
      · exact .inr (.inr ⟨g, List.mem_cons_self .., hg, hf⟩)
      · refine .inl ⟨List.mem_cons_of_mem _ hf, fun hp => hfs.1 ?_⟩
        exact List.mem_map.2 ⟨f, hf, hp.trans hg.symm⟩
    · rw [consider, if_neg hg] at hf
      rcases List.mem_cons.1 hf with rfl | hf
      · exact .inl ⟨List.mem_cons_self .., hg⟩
      · rcases ih hfs.2 hf with ⟨hmem, hne⟩ | ⟨hnew, heq⟩ | ⟨g', hg', hheader, heq⟩
        · exact .inl ⟨List.mem_cons_of_mem _ hmem, hne⟩
        · refine .inr (.inl ⟨fun hp => ?_, heq⟩)
          exact (List.mem_cons.1 hp).elim (fun hp => hg hp.symm) hnew
        · exact .inr (.inr ⟨g', List.mem_cons_of_mem _ hg', hheader, heq⟩)

/-! ## Taking all offers -/

/-- **Headers are found in the order in which they are first offered.** -/
theorem headers_foldl_consider (os : List (Path × Source)) :
    (os.foldl consider []).map Finding.header = firstOfEach id [] (os.map Prod.fst) := by
  induction os using List.reverseRecOn with
  | nil => rfl
  | append_singleton os o ih =>
    rw [List.foldl_append, List.foldl_cons, List.foldl_nil, headers_consider, ih, List.map_append,
      List.map_singleton, firstOfEach_nil_concat]

/-- **A finding keeps the first of the most alike** of the sources that
its header has been offered by. -/
theorem best_of_mem_foldl_consider (hf : f ∈ os.foldl consider []) :
    f.score = f.lender.alike f.header ∧
      firstGreatest? (Source.alike f.header) (offeredBy os f.header) = some f.lender := by
  induction os using List.reverseRecOn generalizing f with
  | nil => exact absurd hf List.not_mem_nil
  | append_singleton os o ih =>
    obtain ⟨p, s⟩ := o
    rw [List.foldl_append, List.foldl_cons, List.foldl_nil] at hf
    rw [offeredBy_concat]
    have hnodup : ((os.foldl consider []).map Finding.header).Nodup :=
      nodup_headers_foldl_consider (List.nodup_nil : (List.map Finding.header []).Nodup)
    rcases mem_consider_cases hnodup hf with ⟨hmem, hne⟩ | ⟨hnew, rfl⟩ | ⟨g, hg, rfl, htaken⟩
    · rw [if_neg (Ne.symm hne)]
      exact ih hmem
    · -- nobody has offered the header before
      have hnone : offeredBy os p = [] := by
        refine List.map_eq_nil_iff.2 (List.filter_eq_nil_iff.2 fun o ho hp => hnew ?_)
        have hp : o.1 = p := of_decide_eq_true hp
        exact mem_headers_foldl_consider.2 (.inr ⟨o.2, hp ▸ ho⟩)
      rw [if_pos rfl, hnone]
      exact ⟨rfl, rfl⟩
    · obtain ⟨hscore, hbest⟩ := ih hg
      have hconcat : firstGreatest? (Source.alike g.header) (offeredBy os g.header ++ [s]) =
          if g.score < s.alike g.header then some s else some g.lender := by
        rw [firstGreatest?_concat, hbest, hscore]
      by_cases hlt : g.score < s.alike g.header
      · rw [if_pos hlt] at htaken hconcat
        subst htaken
        rw [if_pos rfl]
        exact ⟨rfl, hconcat⟩
      · rw [if_neg hlt] at htaken hconcat
        subst htaken
        rw [if_pos rfl]
        exact ⟨hscore, hconcat⟩

/-! ## What a frontier offers -/

theorem map_fst_offers (h : Host) (known : List Path) (frontier : List Source) :
    (offers h known frontier).map Prod.fst =
      (frontier.flatMap fun s => s.command.includedFiles h).filter fun p => p ∉ known := by
  rw [offers, List.map_flatMap, List.filter_flatMap]
  refine congrArg (List.flatMap · frontier) (funext fun s => ?_)
  rw [List.map_map]
  exact List.map_id _

/-- **A source offers a new header** once for each of its includes of
it. -/
theorem offeredBy_offers (hp : p ∉ known) (frontier : List Source) :
    offeredBy (offers h known frontier) p =
      frontier.flatMap fun s => List.replicate ((s.command.includedFiles h).count p) s := by
  rw [offeredBy, offers, List.filter_flatMap, List.map_flatMap]
  refine congrArg (List.flatMap · frontier) (funext fun s => ?_)
  -- a filtered list of copies is as many copies as the header is repeated
  have hcopies : ∀ ps : List Path, (((ps.filter fun p => p ∉ known).map fun p => (p, s)).filter
      fun o => o.1 = p).map Prod.snd = List.replicate (ps.count p) s := by
    intro ps
    induction ps with
    | nil => rfl
    | cons q ps ih =>
      by_cases hq : q = p
      · subst hq
        rw [List.filter_cons_of_pos (by simpa using hp), List.map_cons,
          List.filter_cons_of_pos (by simp), List.map_cons, ih, List.count_cons_self,
          List.replicate_succ]
      · rw [List.count_cons_of_ne hq, ← ih]
        by_cases hknown : q ∈ known
        · rw [List.filter_cons_of_neg (by simpa using hknown)]
        · rw [List.filter_cons_of_pos (by simpa using hknown), List.map_cons,
            List.filter_cons_of_neg (by simpa using hq)]
  exact hcopies _

/-! ## One round -/

theorem headers_round (h : Host) (stage : Stage) :
    (round h stage.known stage.frontier).headers = stage.headers h := by
  rw [Round.headers, round, headers_foldl_consider, map_fst_offers, firstOfEach_filter]
  rfl

/-- **A round takes the best lender** for every header that it finds. -/
theorem lender?_of_mem_round {stage : Stage}
    (hf : f ∈ (round h stage.known stage.frontier).findings) :
    stage.lender? h f.header = some f.lender := by
  have hnew := (lender_of_mem_round hf).2.2
  have hbest := (best_of_mem_foldl_consider hf).2
  rw [offeredBy_offers hnew, firstGreatest?_flatMap_replicate] at hbest
  rw [← hbest, Stage.lender?, Stage.includers]
  simp only [List.count_pos_iff]

/-- **A round leads to the next stage.** -/
theorem next_round (h : Host) (stage : Stage) :
    (round h stage.known stage.frontier).next h = (stage.next h).frontier := by
  have hderived : (round h stage.known stage.frontier).findings.map (Finding.source h) =
      stage.derived h := by
    rw [Stage.derived, ← headers_round, Round.headers, List.filterMap_map, ← List.filterMap_eq_map]
    refine List.filterMap_congr fun f hf => ?_
    rw [Function.comp_apply, Function.comp_apply, lender?_of_mem_round hf]
    rfl
  rw [Round.next, hderived]
  rfl

/-! ## A whole run -/

variable {stage : Stage}

theorem includers_eq_nil_iff : stage.includers h p = [] ↔
    ∀ s ∈ stage.frontier, p ∉ s.command.includedFiles h := by
  rw [Stage.includers, List.filter_eq_nil_iff]
  simp only [decide_eq_true_eq]

/-- **Whatever a run finds** is lent by the best lender of the first stage
that includes it. -/
theorem exists_stage_of_found (n : Nat)
    (hf : f ∈ found (roundsUpTo h n stage.known stage.frontier)) :
    ∃ r, (stage.after h r).lender? h f.header = some f.lender ∧
      ∀ k < r, (stage.after h k).includers h f.header = [] := by
  induction n generalizing stage with
  | zero => exact absurd hf List.not_mem_nil
  | succ n ih =>
    rw [found_roundsUpTo_succ, List.mem_append] at hf
    rcases hf with hf | hf
    · exact ⟨0, lender?_of_mem_round hf, fun k hk => absurd hk (Nat.not_lt_zero k)⟩
    · rw [next_round] at hf
      have hknown : (round h stage.known stage.frontier).headers ++ stage.known =
          (stage.next h).known := by rw [headers_round]; rfl
      have hfresh := (fresh_found n _ _).2 f hf
      rw [hknown] at hf
      obtain ⟨r, hlender, hbefore⟩ := ih hf
      refine ⟨r + 1, hlender, fun k hk => ?_⟩
      cases k with
      | zero =>
        -- this round would have found the header, or it had been found before
        refine includers_eq_nil_iff.2 fun s hs hp => hfresh (List.mem_append.2 ?_)
        by_cases hold : f.header ∈ stage.known
        · exact .inr hold
        · exact .inl (mem_headers_round.2 ⟨hold, s, hs, hp⟩)
      | succ k => exact hbefore k (Nat.lt_of_succ_lt_succ hk)

/-- Whether `lent` says who lends its command to which header, where `out`
are the borrowed commands by build directory: each header has one lender
and gets its command in the lender's directory, and that is the first of
the most alike of all sources that include the header on the first stage
on which any does. -/
structure IsLending (h : Host) (start : Stage) (out : List (List CompileCommand))
    (lent : List (Path × Source)) : Prop where
  commands : out = (List.range out.length).map fun i =>
    (lent.filter fun e => e.2.directory = i).map fun e => e.2.command.lentTo h e.1
  once : (lent.map Prod.fst).Nodup
  placed : ∀ e ∈ lent, e.2.directory < out.length
  best : ∀ e ∈ lent, ∃ r, (∀ k < r, (start.after h k).includers h e.1 = []) ∧
    IsFirstGreatest (Source.alike e.1) ((start.after h r).includers h e.1) e.2

end Inference

open Inference LayeredDatabase

variable {h : Host} {stack : List Layer} {css : List (List (List CompileCommand))} {n : Nat}

/-- **Every header borrows from its best includer.** An inference over
equally long layers that can be read gives a list of commands for every
build directory, and the commands of the lists are those that the headers
borrow from their best lenders. -/
theorem inferHeaders_from_best (hlength : ∀ l ∈ stack, l.length = n)
    (hread : contents h stack = css.map (List.map .ok)) :
    ∃ out lent, (inferHeaders h (contents h stack)).value = .ok out ∧
      out.length = (stack.head?.getD []).length ∧ IsLending h (Stage.start css) out lent := by
  have hcount : ((contents h stack).head?.getD []).length = (stack.head?.getD []).length := by
    cases stack with
    | nil => rfl
    | cons l stack => exact List.length_map ..
  have hout : (inferHeaders h (contents h stack)).value =
      .ok ((List.range (stack.head?.getD []).length).map
        (inferredFor h (Inference.run h css))) :=
    inferHeaders_eq_ok.2 ⟨css, hread, by rw [hcount]⟩
  refine ⟨_, (found (Inference.run h css)).map fun f => (f.header, f.lender), hout, ?_, ?_⟩
  · rw [List.length_map, List.length_range]
  have hfound : found (Inference.run h css) = found (roundsUpTo h (roundLimit h)
      (Stage.start css).known (Stage.start css).frontier) := rfl
  refine ⟨?_, ?_, ?_, ?_⟩
  · rw [List.length_map, List.length_range]
    refine List.map_congr_left fun i _ => ?_
    rw [inferredFor_eq, List.filter_map, List.map_map]
    rfl
  · rw [List.map_map]
    exact (fresh_rounds h _ _).1
  · intro e he
    obtain ⟨f, hf, rfl⟩ := List.mem_map.1 he
    rw [List.length_map, List.length_range, ← hcount]
    exact directory_lt_of_found
      (fun s hs => directory_lt_of_holds hlength ((mem_sources hread).1 hs)) (hfound ▸ hf)
  · intro e he
    obtain ⟨f, hf, rfl⟩ := List.mem_map.1 he
    obtain ⟨r, hlender, hbefore⟩ := exists_stage_of_found _ (hfound ▸ hf)
    exact ⟨r, hbefore, isFirstGreatest_iff.2 hlender⟩

/-! ## Includers that compete for a header -/

namespace Rivals

open Text

/-- A directory with three sources that include the same header. -/
def tree (line : ByteArray) : FileTree where
  entries := [(["p"], .directory), (["p", "a.c"], .file line), (["p", "b.c"], .file line),
    (["p", "b.cc"], .file line), (["p", "b.h"], .file "".toUTF8)]
  distinct := by simp
  proper := by simp; decide
  closed := by simp

def host : Host := ⟨tree (Cycle.includeLine "b.h").toByteArray, some [], none, none, none⟩

def command (file option : String) : CompileCommand :=
  ⟨⟨"/p"⟩, ⟨file⟩, ["cc", option, "-c", file], none⟩

/-- A source whose name is another than that of the header. -/
def other : Source := ⟨0, command "a.c" "-DA"⟩

/-- The first of two sources that are called like the header. -/
def best : Source := ⟨0, command "b.c" "-DB"⟩

/-- The second one. -/
def equal : Source := ⟨0, command "b.cc" "-DC"⟩

def layer : List CompileCommand := [other.command, best.command, equal.command]

def layers : List Layer := [[.memory layer]]

theorem isFile_header : host.isFile ((⟨"/p"⟩ : Path).join ⟨"b.h"⟩) = true := by
  have hmem : (["p", "b.h"], .file "".toUTF8) ∈ host.tree.entries := by simp [host, tree]
  rw [show (⟨"/p"⟩ : Path).join ⟨"b.h"⟩ = (Place.absolute ["p", "b.h"]).toPath by decide]
  exact Host.isFile_of_read (Host.read_toPath hmem)

/-- A source of the directory includes the header beside it. -/
theorem includedFiles_command {file option : String}
    (hfile : (command file option).normalizedFile = (Place.absolute ["p", file]).toPath)
    (hentry : (["p", file], .file (Cycle.includeLine "b.h").toByteArray) ∈ host.tree.entries)
    (hplaces : Include.places ⟨.quoted, "b.h"⟩ (command file option).normalizedFile
      (command file option).searchDirectories = [⟨"/p"⟩]) :
    (command file option).includedFiles host = [⟨"/p/b.h"⟩] := by
  have hread : host.read (command file option).normalizedFile =
      .ok (Cycle.includeLine "b.h").toByteArray := hfile ▸ Host.read_toPath hentry
  rw [CompileCommand.includedFiles_of_isFile hread
    (by rw [toList_toByteArray, Cycle.ofContent_includeLine.1]) hplaces isFile_header]
  decide

theorem includedFiles_sources : other.command.includedFiles host = [⟨"/p/b.h"⟩] ∧
    best.command.includedFiles host = [⟨"/p/b.h"⟩] ∧
    equal.command.includedFiles host = [⟨"/p/b.h"⟩] :=
  ⟨includedFiles_command (by decide) (by simp [host, tree]) (by decide),
    includedFiles_command (by decide) (by simp [host, tree]) (by decide),
    includedFiles_command (by decide) (by simp [host, tree]) (by decide)⟩

theorem alike_sources : other.alike ⟨"/p/b.h"⟩ = 30 ∧ best.alike ⟨"/p/b.h"⟩ = 60 ∧
    equal.alike ⟨"/p/b.h"⟩ = 60 := by
  decide +kernel

/-- What the header borrows. -/
def inferred : CompileCommand := ⟨⟨"/p"⟩, ⟨"b.h"⟩, ["cc", "-DB", "-c", "b.h"], none⟩

theorem lentTo_best : best.command.lentTo host ⟨"/p/b.h"⟩ = inferred := by
  decide

theorem includedFiles_inferred : inferred.includedFiles host = [] := by
  have hmem : (["p", "b.h"], .file "".toUTF8) ∈ host.tree.entries := by simp [host, tree]
  have hread : host.read inferred.normalizedFile = .ok "".toUTF8 := by
    rw [show inferred.normalizedFile = (Place.absolute ["p", "b.h"]).toPath by decide]
    exact Host.read_toPath hmem
  have hincludes : host.includesOf inferred.normalizedFile = [] := by
    simp only [Host.includesOf, hread]
    decide +kernel
  rw [CompileCommand.includedFiles, hincludes, List.filterMap_nil]

/-- The header is taken over by the first source that is more alike, and
not by the next one, which is as alike. -/
def finding : Finding := ⟨⟨"/p/b.h"⟩, best.alike ⟨"/p/b.h"⟩, best⟩

theorem round_sources : Inference.round host (layer.map CompileCommand.normalizedFile)
    [other, best, equal] = ⟨[other, best, equal], [finding]⟩ := by
  obtain ⟨hother, hbest, hequal⟩ := includedFiles_sources
  obtain ⟨hless, hmost, hsame⟩ := alike_sources
  have hnew : ([⟨"/p/b.h"⟩] : List Path).filter
      (fun p => p ∉ layer.map CompileCommand.normalizedFile) = [⟨"/p/b.h"⟩] := by
    decide
  have hoffers : offers host (layer.map CompileCommand.normalizedFile) [other, best, equal] =
      [(⟨"/p/b.h"⟩, other), (⟨"/p/b.h"⟩, best), (⟨"/p/b.h"⟩, equal)] := by
    simp only [offers, List.flatMap_cons, List.flatMap_nil, hother, hbest, hequal, hnew]
    rfl
  rw [Source.alike] at hless hmost hsame
  rw [Inference.round, hoffers]
  simp [consider, hless, hmost, hsame, finding, Source.alike]

theorem found_run : found (run host [[layer]]) = [finding] := by
  obtain ⟨n, hn⟩ : ∃ n, roundLimit host = n + 1 :=
    Nat.exists_eq_succ_of_ne_zero (Nat.ne_of_gt (Nat.pow_pos (Nat.succ_pos _)))
  change found (rounds host (layer.map CompileCommand.normalizedFile) [other, best, equal]) = _
  rw [rounds, hn, found_roundsUpTo_succ, round_sources, found_of_closed n, List.append_nil]
  -- the second round scans the header, which includes nothing
  intro s hs p hp
  obtain ⟨f, hf, rfl⟩ := mem_next.1 hs
  obtain rfl := List.mem_singleton.1 hf
  have hsource : (finding.source host).command = inferred := lentTo_best
  rw [hsource, includedFiles_inferred] at hp
  exact absurd hp List.not_mem_nil

theorem inferHeaders_eq : (inferHeaders host (contents host layers)).value = .ok [[inferred]] := by
  refine inferHeaders_eq_ok.2 ⟨[[layer]], rfl, ?_⟩
  change _ = (List.range 1).map _
  have hkept : [finding].filter (fun f => f.lender.directory = 0) = [finding] := rfl
  rw [List.range_one, List.map_singleton, inferredFor_eq, found_run, hkept, List.map_singleton]
  exact congrArg (fun c => [[c]]) lentTo_best.symm

theorem includers_start :
    (Stage.start [[layer]]).includers host ⟨"/p/b.h"⟩ = [other, best, equal] := by
  obtain ⟨hother, hbest, hequal⟩ := includedFiles_sources
  change [other, best, equal].filter _ = _
  simp only [List.filter_cons, hother, hbest, hequal, List.mem_singleton, decide_true, if_true,
    List.filter_nil]

theorem eq_best {s : Source}
    (hs : IsFirstGreatest (Source.alike ⟨"/p/b.h"⟩) [other, best, equal] s) : s = best := by
  obtain ⟨hless, hmost, hsame⟩ := alike_sources
  have hbest : IsFirstGreatest (Source.alike ⟨"/p/b.h"⟩) [other, best, equal] best := by
    refine ⟨[other], [equal], rfl, List.forall_mem_singleton.2 ?_, List.forall_mem_singleton.2 ?_⟩
    · omega
    · omega
  exact Option.some.inj ((isFirstGreatest_iff.1 hs).symm.trans (isFirstGreatest_iff.1 hbest))

/-- What is borrowed says who has lent it. -/
theorem lent_eq {lent : List (Path × Source)}
    (hlent : IsLending host (Stage.start [[layer]]) [[inferred]] lent) :
    lent = [(⟨"/p/b.h"⟩, best)] := by
  have hall : lent.filter (fun e => e.2.directory = 0) = lent :=
    List.filter_eq_self.2 fun e he => decide_eq_true (Nat.lt_one_iff.1 (hlent.placed e he))
  have hcommands : [[inferred]] = (List.range 1).map _ := hlent.commands
  rw [List.range_one, List.map_singleton, hall] at hcommands
  obtain ⟨e, rfl, hcommand⟩ := List.map_eq_singleton_iff.1 (List.cons.inj hcommands).1.symm
  obtain ⟨r, hbefore, hgreatest⟩ := hlent.best e (List.mem_singleton_self e)
  -- the command was lent to the header, which the first stage includes
  have hdir : e.2.command.directory.isAbsolute = true :=
    congrArg (fun c => c.directory.isAbsolute) hcommand
  have hincluded : e.1 ∈ e.2.command.includedFiles host :=
    of_decide_eq_true (List.mem_filter.1 hgreatest.mem).2
  have hheader : e.1 = ⟨"/p/b.h"⟩ := by
    have hfile := CompileCommand.normalizedFile_lentTo (h := host) hdir
      (CompileCommand.isCanonical_of_mem_includedFiles hdir hincluded)
    rw [← hfile, hcommand]
    decide
  rw [hheader] at hbefore hgreatest
  cases r with
  | zero =>
    rw [← hheader, ← eq_best (includers_start ▸ hgreatest)]
  | succ r =>
    have hnone : (Stage.start [[layer]]).includers host ⟨"/p/b.h"⟩ = [] :=
      hbefore 0 (Nat.succ_pos r)
    rw [includers_start] at hnone
    cases hnone

end Rivals

/-- Of three sources that include the header, it borrows from the first of
the two that are most alike. -/
theorem inferHeaders_from_best_of_rivals :
    (∀ l ∈ Rivals.layers, l.length = 1) ∧
    contents Rivals.host Rivals.layers = [[Rivals.layer]].map (List.map .ok) ∧
    ∃ out lent, (inferHeaders Rivals.host (contents Rivals.host Rivals.layers)).value = .ok out ∧
      IsLending Rivals.host (Stage.start [[Rivals.layer]]) out lent ∧
      lent = [(⟨"/p/b.h"⟩, Rivals.best)] ∧ out = [[Rivals.inferred]] := by
  have hlength : ∀ l ∈ Rivals.layers, l.length = 1 := List.forall_mem_singleton.2 rfl
  have hread : contents Rivals.host Rivals.layers = [[Rivals.layer]].map (List.map .ok) := rfl
  obtain ⟨out, lent, hout, -, hlent⟩ := inferHeaders_from_best hlength hread
  obtain rfl : out = [[Rivals.inferred]] := Except.ok.inj (hout.symm.trans Rivals.inferHeaders_eq)
  exact ⟨hlength, hread, _, lent, hout, hlent, Rivals.lent_eq hlent, rfl⟩

end CompileCommands
