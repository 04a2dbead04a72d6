import CompileCommands.Proofs.Layers.Alignment
/-!
# Updates that fail

An update that fails puts the layers back, but not the cache files that
it has written. A database of a layer that has been put back and not been
read yet is read from its file when it is asked next, and then holds what
the failed update derived (`answers_after_failure_differ`). All that
matters is whether a file that is still unread has been written: if none
has, every answer is what it was (`answers_after_failure`).
-/

namespace CompileCommands

namespace LayeredDatabase

variable {h h' : Host} {s s' : LayeredDatabase} {e : DbError}

/-- **The layers are put back.** What the update has read of the base stays
read. -/
theorem alike_of_failed (hs : Reachable s) (hfail : (s.update h).result.2 = some e)
    (hclear : Database.Clear h (unreadIn (s.layers.take 1)) (savedFiles (s.update h).notes)) :
    Alike (s.update h).host (s.update h).result.1.layers s.layers := by
  obtain ⟨ls, failure, hr, hresult⟩ := update_cases h s
  rcases hresult with ⟨-, hresult⟩ | ⟨e', -, hresult⟩
  · rw [hresult] at hfail
    cases hfail
  · have hone : 1 ≤ (s.layers.take 1).length := Nat.le_of_eq hs.isAligned.length_take.symm
    have hbase := hr.alike_take hone (by rw [List.take_take]; exact hclear)
    rw [List.take_take, Nat.min_self] at hbase
    rw [hresult]
    have hlayers := hbase.append (.refl _ (s.layers.drop 1))
    rwa [List.take_append_drop] at hlayers

/-- **A failed update changes no answer**, unless a file that it has
written, or tried to write, is one that the layers have not read yet. -/
theorem answers_after_failure (hdir : h.HasWorkingDirectory) (hs : Reachable s)
    (hfail : (s.update h).result.2 = some e)
    (hapart : ∀ f ∈ unreadIn s.layers, ∀ p ∈ savedFiles (s.update h).notes, h.Apart f p) :
    AnswersAs h s (s.update h).host (s.update h).result.1 := by
  obtain ⟨ls, failure, hr, -⟩ := update_cases h s
  refine (answersAs_of_apart hdir hr.alikeButFiles hapart).trans
    (alike_of_failed hs hfail fun f hf _ p hp => hapart f ?_ p hp).answersAs
  exact List.mem_flatMap.2
    ((mem_unreadIn.1 hf).imp fun l hl => ⟨List.mem_of_mem_take hl.1, hl.2⟩)

/-! ## A failure after a cache file has been written -/

namespace Sample

theorem load_files :
    CommandFile.load host ⟨"/w/b/compile_commands.json"⟩ = .ok [command] ∧
      CommandFile.load host ⟨"/w/b/first.json"⟩ = .ok [] ∧
      CommandFile.load host ⟨"/w/b/second.json"⟩ = .ok [] := by
  refine ⟨CommandFile.load_of_read ?_, CommandFile.load_of_read ?_, CommandFile.load_of_read ?_⟩
  · rw [Host.read, host, locate_files.1]
  · rw [Host.read, host, locate_files.2.1]
  · rw [Host.read, host, locate_files.2.2]

theorem commandsAll_state {h : Host} {c : Complementer} {base held held' : List CompileCommand}
    (hbase : CommandFile.load h ⟨"/w/b/compile_commands.json"⟩ = .ok base)
    (hfirst : CommandFile.load h ⟨"/w/b/first.json"⟩ = .ok held)
    (hsecond : CommandFile.load h ⟨"/w/b/second.json"⟩ = .ok held') :
    Database.commandsAll h (state c).layers.flatten = .ok (base ++ (held ++ held')) := by
  rw [← cacheFile_first] at hfirst
  rw [← cacheFile_second c] at hsecond
  refine Database.chain_eq_ok.2 ⟨base, _, hbase, ?_, rfl⟩
  refine Database.chain_eq_ok.2 ⟨held, _, hfirst, ?_, rfl⟩
  exact Database.chain_eq_ok.2 ⟨held', [], hsecond, rfl, (List.append_nil _).symm⟩

/-- What the update that fails has done by then. -/
theorem update_failing {s : LayeredDatabase} (hcs : s.complementers = [first, second failing])
    (hds : s.directories = [⟨"/w/b"⟩]) :
    (s.update host).result.2 = some (.io ⟨"fail"⟩ (.other "boom")) ∧
      savedFiles (s.update host).notes = [⟨"/w/b/first.json"⟩] ∧
      CommandFile.load (s.update host).host ⟨"/w/b/first.json"⟩ = .ok [derived] := by
  have hsaved : (saveAll first host [([derived], ⟨"/w/b"⟩)]).result = none :=
    result_saveAll_of_read (List.forall_mem_singleton.2
      (read_cacheFile (failing) first (List.mem_cons_self ..)))
  have hload := load_of_saveAll_of_apart hsaved (List.pairwise_singleton _ _) _
    (List.mem_singleton_self _)
  rw [cacheFile_first] at hload
  obtain ⟨ls, failure, hr, hresult⟩ := update_cases host s
  rw [hcs, hds] at hr
  generalize savedFiles (s.update host).notes = files at hr ⊢
  generalize (s.update host).host = h' at hr ⊢
  -- the first complementer gets through, and the second does not
  cases hr with
  | underived hderive => cases hderive
  | miscounted hderive hlength => cases hderive; exact absurd rfl hlength
  | unsaved hderive hlength hunsaved =>
    cases hderive
    rw [show [[derived]].zip [(⟨"/w/b"⟩ : Path)] = [([derived], ⟨"/w/b"⟩)] from rfl,
      hsaved] at hunsaved
    cases hunsaved
  | step hderive hlength _ hrest =>
    cases hderive
    cases hrest with
    | underived hderive =>
      cases hderive
      rcases hresult with ⟨hnone, -⟩ | ⟨e, he, hresult⟩
      · cases hnone
      · cases he
        refine ⟨by rw [hresult], ?_, hload⟩
        rw [List.append_nil, List.map_singleton, cacheFile_first]
    | miscounted hderive _ => cases hderive
    | unsaved hderive _ _ => cases hderive
    | step hderive _ _ _ => cases hderive

end Sample

/-- **A failed update can change answers.** The second complementer fails
after the first has been saved, and the layer that has been put back, which
nobody had read, now holds what the update derived. -/
theorem answers_after_failure_differ :
    Reachable (Sample.state Sample.failing) ∧
    ((Sample.state Sample.failing).update Sample.host).result.2 =
      some (.io ⟨"fail"⟩ (.other "boom")) ∧
    (Sample.state Sample.failing).commands Sample.host false = .ok [Sample.command] ∧
    ((Sample.state Sample.failing).update Sample.host).result.1.commands
      ((Sample.state Sample.failing).update Sample.host).host false =
        .ok [Sample.command, Sample.derived] := by
  obtain ⟨hfail, hsaved, hfirst⟩ :=
    Sample.update_failing (s := Sample.state Sample.failing) rfl rfl
  obtain ⟨hbase, hold, hsecond⟩ := Sample.load_files
  obtain ⟨hbasefirst, -, hfirstsecond⟩ := Sample.apart_files
  obtain ⟨ls, failure, hr, -⟩ := update_cases Sample.host (Sample.state Sample.failing)
  have hh := hr.alikeButFiles
  rw [hsaved] at hh
  have hcommands : ∀ {h : Host} {cs : List CompileCommand},
      Database.commandsAll h (Sample.state Sample.failing).layers.flatten = .ok cs →
        (Sample.state Sample.failing).commands h false = .ok cs :=
    fun hcs => by rw [LayeredDatabase.commands, hcs]; rfl
  refine ⟨Sample.reachable_state _, hfail,
    hcommands (Sample.commandsAll_state hbase hold hsecond), ?_⟩
  have halike := alike_of_failed (Sample.reachable_state _) hfail (by
    rw [hsaved]
    intro f hf _ p hp
    rw [List.mem_singleton.1 hf, List.mem_singleton.1 hp]
    exact hbasefirst)
  rw [halike.commands false]
  rw [← hh.load (List.forall_mem_singleton.2 hbasefirst)] at hbase
  rw [← hh.load (List.forall_mem_singleton.2 hfirstsecond.symm)] at hsecond
  exact hcommands (Sample.commandsAll_state hbase hfirst hsecond)

/-- Once the layers have been listed, the same failure changes
nothing. -/
theorem answers_after_failure_of_listed :
    Sample.host.HasWorkingDirectory ∧
    Reachable ((Sample.state Sample.failing).readAll Sample.host) ∧
    (((Sample.state Sample.failing).readAll Sample.host).update Sample.host).result.2 =
      some (.io ⟨"fail"⟩ (.other "boom")) ∧
    AnswersAs Sample.host ((Sample.state Sample.failing).readAll Sample.host)
      (((Sample.state Sample.failing).readAll Sample.host).update Sample.host).host
      (((Sample.state Sample.failing).readAll Sample.host).update Sample.host).result.1 := by
  have hdir : Sample.host.HasWorkingDirectory := by
    rintro d ⟨⟩
    rfl
  have hs : Reachable ((Sample.state Sample.failing).readAll Sample.host) :=
    .call Sample.host .listAll (Sample.reachable_state _)
  have hfail := (Sample.update_failing
    (s := (Sample.state Sample.failing).readAll Sample.host) rfl rfl).1
  have hlisted := Sample.commandsAll_state (c := Sample.failing) Sample.load_files.1
    Sample.load_files.2.1 Sample.load_files.2.2
  refine ⟨hdir, hs, hfail, answers_after_failure hdir hs hfail fun f hf => ?_⟩
  rw [readAll, unreadIn_readLayers hlisted] at hf
  exact absurd hf List.not_mem_nil

end LayeredDatabase

end CompileCommands
