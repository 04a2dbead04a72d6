import CompileCommands.Proofs.Host.Normalized
import CompileCommands.Proofs.Layers.Alignment
/-!
# Turn after turn

In an update the complementers take their turns: each is started, derives
its lists, has its cache files written in the order of the directories,
and is finished. `Turns` says how far an update comes and where it stops;
what it has told and written by then is read off it (`update_turns`).
Complementers that have not come to write leave their cache files alone;
only under one name can they share them with one that has
(`name_eq_of_meet`).
-/

namespace CompileCommands

namespace LayeredDatabase

variable {h h' : Host} {directories : List Path} {layers : List Layer}
variable {c : NamedComplementer} {busy idle : List NamedComplementer}
variable {taken : List (NamedComplementer × List (List CompileCommand))}
variable {told : List UpdateEvent} {failure : Option DbError}
variable {work : List (List CompileCommand × Path)}

/-! ## What an update tells -/

/-- The steps among what is told. -/
def events (notes : List UpdateNote) : List UpdateEvent :=
  notes.filterMap fun note =>
    match note with
    | .event e => some e
    | .log _ => none

theorem events_append (ms ns : List UpdateNote) : events (ms ++ ns) = events ms ++ events ns :=
  List.filterMap_append

theorem events_cons (e : UpdateEvent) (notes : List UpdateNote) :
    events (.event e :: notes) = e :: events notes := rfl

/-- Log lines are no steps. -/
theorem events_log (lines : List LogLine) : events (lines.map UpdateNote.log) = [] := by
  induction lines with
  | nil => rfl
  | cons line lines ih => exact ih

/-- The announcements of cache files, directory by directory. -/
def announcements (c : NamedComplementer) (directories : List Path) : List UpdateEvent :=
  directories.map fun d => .saving (c.cacheFile d)

/-- The steps of a complementer that is not stopped. -/
def turn (directories : List Path) (c : NamedComplementer) : List UpdateEvent :=
  .started c.name :: announcements c directories ++ [.finished c.name]

theorem events_of_saved (hsaved : (saveAll c h work).result = none) :
    events (saveAll c h work).notes = announcements c (work.map Prod.snd) := by
  induction work generalizing h with
  | nil => rfl
  | cons w work ih =>
    obtain ⟨commands, d⟩ := w
    rcases saveAll_cons_cases c h commands d work with ⟨e, heq⟩ | ⟨h₁, -, heq⟩
    · rw [heq] at hsaved
      cases hsaved
    · rw [heq] at hsaved ⊢
      rw [events_cons, ih hsaved]
      rfl

/-! ## What an update writes -/

/-- Saving a layer writes its cache files. -/
theorem writtenAt_saveAll (c : NamedComplementer) (h : Host)
    (work : List (List CompileCommand × Path)) :
    Host.WrittenAt ((work.map Prod.snd).map c.cacheFile) h (saveAll c h work).host := by
  induction work generalizing h with
  | nil => exact Host.WrittenAt.refl _ h
  | cons w work ih =>
    obtain ⟨commands, d⟩ := w
    rcases saveAll_cons_cases c h commands d work with ⟨e, heq⟩ | ⟨h₁, hwrite, heq⟩
    · rw [heq]
      exact Host.WrittenAt.refl _ h
    · rw [heq]
      exact (Host.writtenAt_of_write hwrite).trans (ih h₁)

/-- **Different cache files** each hold what was derived for their
directory. -/
theorem read_saveAll (hsaved : (saveAll c h work).result = none)
    (hapart : ((work.map Prod.snd).map c.cacheFile).Pairwise (¬ h.Meet · ·)) :
    ∀ w ∈ work, (saveAll c h work).host.read (c.cacheFile w.2) =
      .ok (CommandFile.render w.1).toUTF8 := by
  induction work generalizing h with
  | nil => exact fun w hw => absurd hw List.not_mem_nil
  | cons w work ih =>
    obtain ⟨commands, d⟩ := w
    obtain ⟨hfirst, hapart⟩ := List.pairwise_cons.1 hapart
    rcases saveAll_cons_cases c h commands d work with ⟨e, heq⟩ | ⟨h₁, hwrite, heq⟩
    · rw [heq] at hsaved
      cases hsaved
    · rw [heq] at hsaved ⊢
      have hh := Host.alikeBut_of_write hwrite
      refine List.forall_mem_cons.2 ⟨?_, ih hsaved (hapart.imp hh.not_meet)⟩
      -- the others do not touch the first
      exact (writtenAt_saveAll c h₁ work).read (fun f hf => hh.not_meet (hfirst f hf))
        (Host.read_of_write hwrite)

/-- **Saving stops at the first file that cannot be written.** -/
theorem exists_of_unsaved {e : DbError} (hunsaved : (saveAll c h work).result = some e) :
    ∃ i commands d e', work[i]? = some (commands, d) ∧
      (saveAll c h (work.take i)).result = none ∧
      (saveAll c h (work.take i)).host = (saveAll c h work).host ∧
      (saveAll c h work).host.write (c.cacheFile d) (CommandFile.render commands).toUTF8 =
        .error e' ∧ e = .io (c.cacheFile d) e' ∧
      events (saveAll c h work).notes = announcements c ((work.map Prod.snd).take (i + 1)) := by
  induction work generalizing h with
  | nil => cases hunsaved
  | cons w work ih =>
    obtain ⟨commands, d⟩ := w
    cases hwrite : h.write (c.cacheFile d) (CommandFile.render commands).toUTF8 with
    | error e' =>
      rw [saveAll_of_error hwrite] at hunsaved ⊢
      exact ⟨0, commands, d, e', rfl, rfl, rfl, hwrite, (Option.some.inj hunsaved).symm, rfl⟩
    | ok h₁ =>
      rw [saveAll_of_write hwrite] at hunsaved ⊢
      obtain ⟨i, commands', d', e', hi, hsaved, hhost, hfail, he, htold⟩ := ih hunsaved
      refine ⟨i + 1, commands', d', e', hi, ?_, ?_, hfail, he, ?_⟩
      · rw [List.take_succ_cons, saveAll_of_write hwrite]
        exact hsaved
      · rw [List.take_succ_cons, saveAll_of_write hwrite]
        exact hhost
      · rw [events_cons, htold]
        rfl

/-! ## How far an update comes -/

/-- How complementers take their turns: which of them are through, each
with the lists that it has derived, which one was writing when the update
stopped, and which have not come to write; what was told since the last
one was through, and with what host and failure it ends. -/
inductive Turns (directories : List Path) : Host → List Layer →
    List (NamedComplementer × List (List CompileCommand)) → List NamedComplementer →
    List NamedComplementer → List UpdateEvent → Host → Option DbError → Prop
  /-- All are through. -/
  | done (h : Host) (layers : List Layer) : Turns directories h layers [] [] [] [] h none
  /-- Nothing can be derived. -/
  | underived {h layers c cs e}
      (hderive : (c.complementer.derive h (contents h layers)).value = .error e) :
      Turns directories h layers [] [] (c :: cs) [.started c.name] h (some e)
  /-- What is derived are not as many lists as there are directories. -/
  | miscounted {h layers c cs out}
      (hderive : (c.complementer.derive h (contents h layers)).value = .ok out)
      (hlength : out.length ≠ directories.length) :
      Turns directories h layers [] [] (c :: cs) [.started c.name] h
        (some (.layerCount c.name directories.length out.length))
  /-- The cache files before the `i`-th are written, and that one cannot
  be. -/
  | unsaved {h layers c cs out i commands d e}
      (hderive : (c.complementer.derive h (contents h layers)).value = .ok out)
      (hlength : out.length = directories.length)
      (hi : (out.zip directories)[i]? = some (commands, d))
      (hsaved : (saveAll c h ((out.zip directories).take i)).result = none)
      (hunsaved : (saveAll c h ((out.zip directories).take i)).host.write (c.cacheFile d)
        (CommandFile.render commands).toUTF8 = .error e) :
      Turns directories h layers [] [c] cs
        (.started c.name :: announcements c (directories.take (i + 1)))
        (saveAll c h ((out.zip directories).take i)).host (some (.io (c.cacheFile d) e))
  /-- The layer is complete, and the others build on it. -/
  | step {h layers c out taken busy idle told h' failure}
      (hderive : (c.complementer.derive h (contents h layers)).value = .ok out)
      (hlength : out.length = directories.length)
      (hsaved : (saveAll c h (out.zip directories)).result = none)
      (hrest : Turns directories (saveAll c h (out.zip directories)).host
        (seenBy c h layers ++ [cacheLayer c directories]) taken busy idle told h' failure) :
      Turns directories h layers ((c, out) :: taken) busy idle told h' failure

/-- The lists derived for directories, and the directories themselves. -/
theorem map_snd_zip {out : List (List CompileCommand)}
    (hlength : out.length = directories.length) :
    (out.zip directories).map Prod.snd = directories :=
  List.map_snd_zip (Nat.le_of_eq hlength.symm)

/-- **Every update goes like that**, and tells the turns of those who are
through. -/
theorem exists_turns (directories : List Path) (h : Host) (layers : List Layer)
    (cs : List NamedComplementer) :
    ∃ taken busy idle told, cs = taken.map Prod.fst ++ (busy ++ idle) ∧
      Turns directories h layers taken busy idle told (recompute directories h layers cs).host
        (recompute directories h layers cs).result.2 ∧
      events (recompute directories h layers cs).notes =
        taken.flatMap (fun t => turn directories t.1) ++ told := by
  induction cs generalizing h layers with
  | nil => exact ⟨[], [], [], [], rfl, .done h layers, rfl⟩
  | cons c cs ih =>
    rw [recompute]
    cases hderive : (c.complementer.derive h (contents h layers)).value with
    | error e =>
      simp only [events_cons, events_log]
      exact ⟨[], [], c :: cs, _, rfl, .underived hderive, rfl⟩
    | ok out =>
      by_cases hlength : out.length = directories.length
      · simp only [hlength, ne_eq, not_true_eq_false, if_false]
        cases hsaved : (saveAll c h (out.zip directories)).result with
        | some e =>
          obtain ⟨i, commands, d, e', hi, hbefore, hhost, hunsaved, rfl, htold⟩ :=
            exists_of_unsaved hsaved
          rw [map_snd_zip hlength] at htold
          simp only [events_append, events_cons, events_log, htold, ← hhost]
          rw [← hhost] at hunsaved
          exact ⟨[], [c], cs, _, rfl, .unsaved hderive hlength hi hbefore hunsaved, rfl⟩
        | none =>
          obtain ⟨taken, busy, idle, told, rfl, hturns, htold⟩ :=
            ih (saveAll c h (out.zip directories)).host
              (seenBy c h layers ++ [cacheLayer c directories])
          have hown := events_of_saved hsaved
          rw [map_snd_zip hlength] at hown
          refine ⟨(c, out) :: taken, busy, idle, told, rfl,
            .step hderive hlength hsaved hturns, ?_⟩
          rw [seenBy] at htold
          simp only [events_append, events_cons, events_log, hown, htold, List.flatMap_cons, turn,
            List.cons_append, List.nil_append, List.append_assoc]
      · simp only [hlength, ne_eq, not_false_eq_true, if_true, events_cons, events_log]
        exact ⟨[], [], c :: cs, _, rfl, .miscounted hderive hlength, rfl⟩

theorem exists_turns_update (h : Host) (s : LayeredDatabase) :
    ∃ taken busy idle told, s.complementers = taken.map Prod.fst ++ (busy ++ idle) ∧
      Turns s.directories h (s.layers.take 1) taken busy idle told (s.update h).host
        (s.update h).result.2 ∧
      events (s.update h).notes = taken.flatMap (fun t => turn s.directories t.1) ++ told := by
  obtain ⟨hnotes, hhost, hresult⟩ := update_eq h s
  rw [hnotes, hhost, hresult]
  exact exists_turns s.directories h (s.layers.take 1) s.complementers

/-- The cache files of complementers. -/
def cacheFilesOf (directories : List Path) (cs : List NamedComplementer) : List Path :=
  cs.flatMap fun c => directories.map c.cacheFile

theorem cacheFilesOf_cons (c : NamedComplementer) (cs : List NamedComplementer) :
    cacheFilesOf directories (c :: cs) =
      directories.map c.cacheFile ++ cacheFilesOf directories cs := rfl

/-- **Only those who come to write do so**, and to their cache files. -/
theorem Turns.writtenAt (hr : Turns directories h layers taken busy idle told h' failure) :
    Host.WrittenAt (cacheFilesOf directories (taken.map Prod.fst ++ busy)) h h' := by
  induction hr with
  | done h layers => exact Host.WrittenAt.refl _ h
  | underived hderive => exact Host.WrittenAt.refl _ _
  | miscounted hderive hlength => exact Host.WrittenAt.refl _ _
  | @unsaved h layers c cs out i commands d e hderive hlength hi hsaved hunsaved =>
    refine (writtenAt_saveAll c h ((out.zip directories).take i)).mono ?_
    rw [List.map_take, map_snd_zip hlength]
    change _ ⊆ directories.map c.cacheFile ++ []
    rw [List.append_nil]
    exact List.map_subset _ (List.take_subset _ _)
  | @step h layers c out taken busy idle told h' failure hderive hlength hsaved hrest ih =>
    have hown := writtenAt_saveAll c h (out.zip directories)
    rw [map_snd_zip hlength] at hown
    exact hown.trans ih

/-- **Those who are through** have left what they derived, if no two cache
files are one. -/
theorem Turns.read (hr : Turns directories h layers taken busy idle told h' failure)
    (hapart : (cacheFilesOf directories (taken.map Prod.fst ++ busy)).Pairwise (¬ h.Meet · ·)) :
    ∀ t ∈ taken, ∀ w ∈ t.2.zip directories,
      h'.read (t.1.cacheFile w.2) = .ok (CommandFile.render w.1).toUTF8 := by
  induction hr with
  | done h layers => exact fun t ht => absurd ht List.not_mem_nil
  | underived hderive => exact fun t ht => absurd ht List.not_mem_nil
  | miscounted hderive hlength => exact fun t ht => absurd ht List.not_mem_nil
  | unsaved hderive hlength hi hsaved hunsaved => exact fun t ht => absurd ht List.not_mem_nil
  | @step h layers c out taken busy idle told h' failure hderive hlength hsaved hrest ih =>
    have hsnd := map_snd_zip hlength
    have hown := writtenAt_saveAll c h (out.zip directories)
    rw [List.map_cons, List.cons_append, cacheFilesOf_cons, List.pairwise_append] at hapart
    obtain ⟨hfiles, hlater, hcross⟩ := hapart
    refine List.forall_mem_cons.2 ⟨fun w hwork => ?_,
      ih (hlater.imp (Host.AlikeBut.not_meet hown))⟩
    -- the others write elsewhere
    have hmem : c.cacheFile w.2 ∈ directories.map c.cacheFile :=
      List.mem_map_of_mem (List.of_mem_zip hwork).2
    refine hrest.writtenAt.read
      (fun f hf => Host.AlikeBut.not_meet hown (hcross _ hmem f hf)) ?_
    exact read_saveAll hsaved (by rw [hsnd]; exact hfiles) w hwork

/-! ## The files of an update -/

/-- **Only under one name** are the cache files of complementers one
file. -/
theorem name_eq_of_meet {c c' : NamedComplementer} {d d' : Path} (ht : h.tree.IsLinkFree)
    (hm : h.Meet (c.cacheFile d) (c'.cacheFile d')) : c.name = c'.name := by
  obtain ⟨l, hl, hl'⟩ := hm
  have hlast := Host.getLast?_of_leadsTo ht c.isName_cacheName hl
  rw [Host.getLast?_of_leadsTo ht c'.isName_cacheName hl'] at hlast
  exact NamedComplementer.cacheName_inj.1 (Option.some.inj hlast).symm

/-- **What an update does, and in which order**, whatever the database and
however it ends, on a host without links. No file changes but cache files.
Each complementer that is through has told its turn and, where no two
cache files are one, has left what it derived in its cache files. Those who
have not come to write, as none of their lists could be derived or there
were not as many as directories, or another had failed before, find their
cache files as they were where no two cache files are one, and wherever
nobody who has written goes by the same name. -/
theorem update_turns (ht : h.tree.IsLinkFree) (hw : h.HasWorkingDirectory)
    (s : LayeredDatabase) :
    h.AlikeBut (fun l => ∃ f ∈ s.cacheFiles, h.absolutePath f = (Place.absolute l).toPath)
      (s.update h).host ∧
    ∃ taken busy idle told, s.complementers = taken.map Prod.fst ++ (busy ++ idle) ∧
      Turns s.directories h (s.layers.take 1) taken busy idle told (s.update h).host
        (s.update h).result.2 ∧
      events (s.update h).notes = taken.flatMap (fun t => turn s.directories t.1) ++ told ∧
      (s.cacheFiles.Pairwise (¬ h.Meet · ·) → ∀ t ∈ taken, ∀ w ∈ t.2.zip s.directories,
        (s.update h).host.read (t.1.cacheFile w.2) = .ok (CommandFile.render w.1).toUTF8) ∧
      ∀ c ∈ idle, (s.cacheFiles.Pairwise (¬ h.Meet · ·) ∨
          c.name ∉ (taken.map Prod.fst ++ busy).map (·.name)) →
        ∀ d ∈ s.directories, ((s.update h).host.locate (c.cacheFile d)).toOption =
          (h.locate (c.cacheFile d)).toOption := by
  obtain ⟨taken, busy, idle, told, hcs, hturns, htold⟩ := exists_turns_update h s
  have hsplit : s.cacheFiles = cacheFilesOf s.directories (taken.map Prod.fst ++ busy) ++
      cacheFilesOf s.directories idle := by
    rw [cacheFiles, hcs, ← List.append_assoc, List.flatMap_append]
    rfl
  refine ⟨Host.AlikeBut.mono hturns.writtenAt ?_, taken, busy, idle, told, hcs, hturns, htold,
    fun hapart => ?_, fun c hc hown d hd => ?_⟩
  · rintro l ⟨f, hf, hl⟩
    rw [hsplit]
    exact ⟨f, List.mem_append_left _ hf, Host.absolutePath_of_leadsTo ht hw hl⟩
  · rw [hsplit] at hapart
    exact hturns.read (List.pairwise_append.1 hapart).1
  · refine hturns.writtenAt.toOption_locate fun f hf hm => ?_
    rcases hown with hapart | hname
    · rw [hsplit] at hapart
      have hidle : c.cacheFile d ∈ cacheFilesOf s.directories idle :=
        List.mem_flatMap.2 ⟨c, hc, List.mem_map_of_mem hd⟩
      obtain ⟨l, hl, hfl⟩ := hm
      exact (List.pairwise_append.1 hapart).2.2 f hf _ hidle ⟨l, hfl, hl⟩
    · obtain ⟨c', hc', hf⟩ := List.mem_flatMap.1 hf
      obtain ⟨d', -, rfl⟩ := List.mem_map.1 hf
      exact hname (name_eq_of_meet ht hm ▸ List.mem_map_of_mem hc')

/-! ## A complementer that fails after another -/

namespace Sample

theorem isLinkFree_tree : host.tree.IsLinkFree := by
  intro e he target
  simp only [host, hostOf, tree, List.mem_cons, List.not_mem_nil, or_false] at he
  rcases he with rfl | rfl | rfl | rfl | rfl <;> exact Entry.noConfusion

theorem hasWorkingDirectory_host : host.HasWorkingDirectory := by
  rintro d ⟨⟩
  rfl

/-- The first complementer is through, and the one that fails has not come
to write. -/
theorem turns_failing (hr : Turns [⟨"/w/b"⟩] host layers taken busy idle told h' failure)
    (hcs : [first, second failing] = taken.map Prod.fst ++ (busy ++ idle)) :
    taken = [(first, [[derived]])] ∧ busy = [] ∧ idle = [second failing] ∧
      told = [.started "second"] := by
  cases hr with
  | done => cases hcs
  | underived hderive =>
    cases hcs
    cases hderive
  | miscounted hderive hlength =>
    cases hcs
    cases hderive
    exact absurd rfl hlength
  | @unsaved _ _ _ _ _ i commands _ _ hderive hlength hi hsaved hunsaved =>
    cases hcs
    cases hderive
    -- the only cache file is there, so it can be written
    obtain ⟨held, hheld⟩ := read_cacheFile failing first (List.mem_cons_self ..)
    obtain ⟨h₁, hwrite⟩ := Host.exists_write_of_read hheld (CommandFile.render commands).toUTF8
    cases i with
    | zero =>
      cases hi
      cases hwrite.symm.trans hunsaved
    | succ i => cases hi
  | step hderive hlength hsaved hrest =>
    obtain ⟨rfl, hlater⟩ := List.cons.inj hcs
    cases hderive
    cases hrest with
    | done => cases hlater
    | underived hderive =>
      cases hlater
      exact ⟨rfl, rfl, rfl, rfl⟩
    | miscounted hderive hlength =>
      cases hlater
      cases hderive
    | unsaved hderive hlength hi hsaved hunsaved =>
      cases hlater
      cases hderive
    | step hderive hlength hsaved hrest =>
      obtain ⟨rfl, -⟩ := List.cons.inj hlater
      cases hderive

end Sample

/-- The first complementer gets through, and the second finds its cache
file as it was. -/
theorem update_turns_of_failing :
    Sample.host.tree.IsLinkFree ∧ Sample.host.HasWorkingDirectory ∧
    events ((Sample.state Sample.failing).update Sample.host).notes =
      [.started "first", .saving ⟨"/w/b/first.json"⟩, .finished "first", .started "second"] ∧
    ((Sample.state Sample.failing).update Sample.host).host.read ⟨"/w/b/first.json"⟩ =
      .ok (CommandFile.render [Sample.derived]).toUTF8 ∧
    (((Sample.state Sample.failing).update Sample.host).host.locate
        ⟨"/w/b/second.json"⟩).toOption =
      (Sample.host.locate ⟨"/w/b/second.json"⟩).toOption := by
  obtain ⟨-, taken, busy, idle, told, hcs, hturns, htold, hread, hidle⟩ :=
    update_turns Sample.isLinkFree_tree Sample.hasWorkingDirectory_host
      (Sample.state Sample.failing)
  obtain ⟨rfl, rfl, rfl, rfl⟩ := Sample.turns_failing hturns hcs
  have hapart : (Sample.state Sample.failing).cacheFiles.Pairwise (¬ Sample.host.Meet · ·) := by
    refine List.pairwise_pair.2 fun hm => ?_
    have hname : Sample.first.name = (Sample.second Sample.failing).name :=
      name_eq_of_meet Sample.isLinkFree_tree hm
    exact absurd hname (by decide)
  refine ⟨Sample.isLinkFree_tree, Sample.hasWorkingDirectory_host, ?_, ?_, ?_⟩
  · rw [htold, ← Sample.cacheFile_first]
    rfl
  · have hfirst := hread hapart _ (List.mem_singleton_self _) ([Sample.derived], ⟨"/w/b"⟩)
      (List.mem_singleton_self _)
    rwa [Sample.cacheFile_first] at hfirst
  · have hsecond := hidle _ (List.mem_singleton_self _) (.inl hapart) ⟨"/w/b"⟩
      (List.mem_singleton_self _)
    rwa [Sample.cacheFile_second] at hsecond

end LayeredDatabase

end CompileCommands
