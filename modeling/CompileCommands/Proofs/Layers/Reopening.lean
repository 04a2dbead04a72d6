import CompileCommands.Proofs.Layers.Alignment
/-!
# Updating and opening again

What an update has computed is in the cache files, so a new database
that is given the same complementers and directories finds it there. On
a file tree that nothing but updates has changed, with cache files that
are apart from one another and from whatever the backends look at, the
base layer stays what the backends find (`Settled.rooted`), and the new
database answers as the updated one does (`reopened_after_update`).
-/

namespace CompileCommands

namespace LayeredDatabase

variable {h h' : Host} {s s' : LayeredDatabase} {written : List Path}

/-! ## States on a settled file tree -/

/-- The host after a call. Only updates write. -/
def Call.host (h : Host) (s : LayeredDatabase) : Call → Host
  | update => (s.update h).host
  | _ => h

theorem Call.host_of_ne {c : Call} (hc : c ≠ .update) : c.host h s = h := by
  cases c with
  | update => exact absurd rfl hc
  | _ => rfl

/-- The states that calls lead to on a file tree that nothing else
changes, from one without build directories. -/
inductive Settled : Host → LayeredDatabase → Prop
  | start (h : Host) {s : LayeredDatabase} : Reachable s → s.directories = [] → Settled h s
  | call {h : Host} {s : LayeredDatabase} (c : Call) :
      Settled h s → Settled (c.host h s) (c.run h s)

theorem Settled.reachable (hs : Settled h s) : Reachable s := by
  induction hs with
  | start h hs _ => exact hs
  | call c _ ih => exact .call _ c ih

/-- Nothing that has been registered is dropped. -/
theorem Call.run_grows (h : Host) (s : LayeredDatabase) (c : Call) :
    (c.run h s).backends = s.backends ∧ s.complementers ⊆ (c.run h s).complementers ∧
      s.directories ⊆ (c.run h s).directories := by
  have hrefl : s.backends = s.backends ∧ s.complementers ⊆ s.complementers ∧
      s.directories ⊆ s.directories := ⟨rfl, List.Subset.refl _, List.Subset.refl _⟩
  rcases c.run_cases h s with ⟨n, heq⟩ | ⟨strict, heq⟩ | ⟨ps, hps, heq⟩ | ⟨ls, -, heq⟩ | rfl
  · rw [heq]
    exact ⟨rfl, List.subset_append_left _ _, List.Subset.refl _⟩
  · rw [heq]
    exact hrefl
  · rw [heq]
    refine push_induction (P := fun t => t.backends = s.backends ∧
      s.complementers ⊆ t.complementers ∧ s.directories ⊆ t.directories) hrefl ?_ hps
    rintro t p ⟨hbackends, hcs, hds⟩ -
    exact ⟨hbackends, hcs, List.Subset.trans hds (List.subset_append_left _ _)⟩
  · rw [heq]
    exact hrefl
  · obtain ⟨ls, failure, -, ⟨-, hresult⟩ | ⟨e, -, hresult⟩⟩ := update_cases h s
    · rw [run, hresult]
      exact hrefl
    · rw [run, hresult]
      exact hrefl

theorem cacheFiles_subset (hcs : s.complementers ⊆ s'.complementers)
    (hds : s.directories ⊆ s'.directories) : s.cacheFiles ⊆ s'.cacheFiles := by
  intro f hf
  obtain ⟨c, hc, hf⟩ := List.mem_flatMap.1 hf
  obtain ⟨d, hd, rfl⟩ := List.mem_map.1 hf
  exact List.mem_flatMap.2 ⟨c, hcs hc, List.mem_map.2 ⟨d, hds hd, rfl⟩⟩

/-! ## The base layer -/

/-- The base database of a directory. -/
def baseAt (h : Host) (bs : Backends) (d : Path) : Database :=
  match bs.recognized? h d with
  | some (_, base) => base
  | none => .null

/-- Whether the backends find the base layer. -/
structure Rooted (h : Host) (s : LayeredDatabase) : Prop where
  found : ∀ d ∈ s.directories, (s.backends.recognized? h d).isSome
  base : Alike h (s.layers.take 1) [s.directories.map (baseAt h s.backends)]

/-- Whether the backends do not look at certain files: no base database
that can be read is kept in one, and none has a part in what they
recognize. -/
structure Overlooks (written : List Path) (h : Host) (s : LayeredDatabase) : Prop where
  clear : ∀ d ∈ s.directories, Database.Clear h (baseAt h s.backends d).sources written
  recognized : ∀ d ∈ s.directories, ∀ h', Host.AlikeButFiles written h h' →
    s.backends.recognized? h' d = s.backends.recognized? h d

theorem Overlooks.baseAt_eq (ho : Overlooks written h s) (hh : Host.AlikeButFiles written h h')
    {d : Path} (hd : d ∈ s.directories) : baseAt h' s.backends d = baseAt h s.backends d := by
  rw [baseAt, baseAt, ho.recognized d hd h' hh]

theorem Overlooks.map_baseAt (ho : Overlooks written h s) (hh : Host.AlikeButFiles written h h') :
    s.directories.map (baseAt h' s.backends) = s.directories.map (baseAt h s.backends) :=
  List.map_congr_left fun _ hd => ho.baseAt_eq hh hd

/-- What the backends overlook may change. -/
theorem Overlooks.host (ho : Overlooks written h s) (hh : Host.AlikeButFiles written h h') :
    Overlooks written h' s where
  clear := by
    intro d hd
    rw [ho.baseAt_eq hh hd]
    exact (ho.clear d hd).host hh
  recognized := by
    intro d hd h'' hh'
    have hboth := (hh.trans hh').mono (List.append_subset.2
      ⟨List.Subset.refl _, List.Subset.refl written⟩)
    rw [ho.recognized d hd h'' hboth, ho.recognized d hd h' hh]

/-- What is overlooked now was overlooked when there were fewer
directories. -/
theorem Overlooks.before (ho : Overlooks written h s') (hbackends : s'.backends = s.backends)
    (hds : s.directories ⊆ s'.directories) : Overlooks written h s := by
  obtain ⟨hclear, hrecognized⟩ := ho
  rw [hbackends] at hclear hrecognized
  exact ⟨fun d hd => hclear d (hds hd), fun d hd => hrecognized d (hds hd)⟩

/-- The backends of the library overlook what is apart from the base
databases. -/
theorem overlooks_builtin (hbackends : s.backends = Backends.builtin)
    (hapart : ∀ d ∈ s.directories, ∀ p ∈ written, h.Apart (d.join ⟨baseName⟩) p) :
    Overlooks written h s where
  clear := by
    intro d hd f hf _ p hp
    rw [hbackends, baseAt, recognized?_builtin, Database.ofDirectory?] at hf
    by_cases hexists : h.pathExists (d.join ⟨"compile_commands.json"⟩) = true
    · simp only [hexists, if_true, Option.map_some] at hf
      rw [List.mem_singleton.1 hf]
      exact hapart d hd p hp
    · simp only [hexists] at hf
      exact absurd hf List.not_mem_nil
  recognized := by
    intro d hd h' hh
    have hlocate := Host.AlikeBut.locate hh (p := d.join ⟨baseName⟩) (by
      rintro l hl ⟨p, hp, hpl⟩
      exact hapart d hd p hp l hl hpl)
    rw [hbackends, recognized?_builtin, recognized?_builtin, Database.ofDirectory?,
      Database.ofDirectory?, Host.pathExists, Host.pathExists]
    change h'.locate (d.join ⟨"compile_commands.json"⟩) = _ at hlocate
    rw [hlocate]
    rfl

/-- The files of the base layer are those of the databases that the
backends find. -/
theorem Rooted.clear (hr : Rooted h s) (ho : Overlooks written h s) :
    Database.Clear h (sourcesIn (s.layers.take 1)) written := by
  intro f hf
  rw [hr.base.sourcesIn_eq, sourcesIn, List.flatMap_singleton] at hf
  obtain ⟨base, hbase, hf⟩ := Database.mem_sourcesAll.1 hf
  obtain ⟨d, hd, rfl⟩ := List.mem_map.1 hbase
  exact ho.clear d hd f hf

theorem Rooted.push {p : ProbedDirectory} (hr : Rooted h s) (ha : IsAligned s)
    (hp : IsProbed h s p) : Rooted h (s.push p) := by
  obtain ⟨b, base, cs, hrecognized, -, hdatabases⟩ := hp
  obtain ⟨l, ls, hlayers⟩ := List.exists_cons_of_length_eq_add_one ha.layers
  refine ⟨List.forall_mem_append.2 ⟨hr.found, List.forall_mem_singleton.2 ?_⟩, ?_⟩
  · rw [push_backends, hrecognized]
    rfl
  · have hbase := hr.base
    rw [hlayers, List.take_succ_cons, List.take_zero] at hbase
    have hfirst : (s.push p).layers.take 1 = [l ++ [base]] := by
      rw [LayeredDatabase.push, hlayers, hdatabases]
      rfl
    have hlast : baseAt h s.backends p.directory = base := by
      rw [baseAt, hrecognized]
    have hdirectories : (s.push p).directories = s.directories ++ [p.directory] := rfl
    rw [hfirst, push_backends, hdirectories, List.map_append, List.map_singleton, hlast]
    exact hbase.snoc base

/-- **An update leaves the base layer to the backends.** -/
theorem Rooted.update (hr : Rooted h s) (ha : IsAligned s) (ho : Overlooks written h s)
    (hwritten : s.cacheFiles ⊆ written) : Rooted (s.update h).host (s.update h).result.1 := by
  obtain ⟨ls, failure, hrun, hresult⟩ := update_cases h s
  have hsaved : savedFiles (s.update h).notes ⊆ written :=
    List.Subset.trans (savedFiles_update h s).subset hwritten
  have hh := hrun.alikeButFiles.mono hsaved
  have hclear := hr.clear ho
  -- the base layer and what the backends find, on the new host
  have hbase : Alike (s.update h).host (ls.take 1)
      [s.directories.map (baseAt (s.update h).host s.backends)] := by
    have hone : 1 ≤ (s.layers.take 1).length := Nat.le_of_eq ha.length_take.symm
    have hkept := hrun.alike_take hone
    rw [List.take_take, Nat.min_self] at hkept
    have hunread := hclear.mono (unreadIn_subset_sourcesIn _) (List.Subset.refl _)
    refine (hkept (hunread.mono (List.Subset.refl _) hsaved)).trans ?_
    rw [ho.map_baseAt hh]
    refine hr.base.of_kept (hunread.kept hh) ((hclear.mono ?_ (List.Subset.refl _)).kept hh)
    rw [hr.base.sourcesIn_eq]
    exact unreadIn_subset_sourcesIn _
  have hfound : ∀ d ∈ s.directories, (s.backends.recognized? (s.update h).host d).isSome := by
    intro d hd
    rw [ho.recognized d hd _ hh]
    exact hr.found d hd
  have hlength : (ls.take 1).length = 1 := by
    have hle := hrun.length_le
    rw [ha.length_take] at hle
    rw [List.length_take]
    omega
  rcases hresult with ⟨-, hresult⟩ | ⟨e, -, hresult⟩
  · rw [hresult]
    exact ⟨hfound, hbase⟩
  · rw [hresult]
    refine ⟨hfound, ?_⟩
    change Alike _ ((ls.take 1 ++ s.layers.drop 1).take 1) _
    rwa [List.take_append_of_le_length hlength.ge, List.take_take]

/-- **The backends find the base layer** in every settled state, as long
as they overlook the cache files. -/
theorem Settled.rooted (hs : Settled h s) (ho : Overlooks written h s)
    (hwritten : s.cacheFiles ⊆ written) : Rooted h s := by
  induction hs with
  | @start h s hs hnone =>
    have ha := hs.isAligned
    obtain ⟨l, ls, hlayers⟩ := List.exists_cons_of_length_eq_add_one ha.layers
    have hl : l = [] := by
      have hlength := ha.databases l (hlayers ▸ List.mem_cons_self ..)
      rw [hnone] at hlength
      exact List.length_eq_zero_iff.1 hlength
    refine ⟨fun d hd => ?_, ?_⟩
    · rw [hnone] at hd
      exact absurd hd List.not_mem_nil
    · rw [hlayers, hl, hnone]
      exact .refl _ _
  | @call h s c hs ih =>
    have ha := hs.reachable.isAligned
    obtain ⟨hbackends, hcs, hds⟩ := c.run_grows h s
    have hfiles : s.cacheFiles ⊆ written := List.Subset.trans (cacheFiles_subset hcs hds) hwritten
    by_cases hc : c = .update
    · -- what is overlooked after the update was overlooked before
      subst hc
      obtain ⟨ls, failure, hrun, -⟩ := update_cases h s
      have hh : Host.AlikeButFiles written h (s.update h).host :=
        hrun.alikeButFiles.mono (List.Subset.trans (savedFiles_update h s).subset hfiles)
      have hbefore := (ho.before hbackends hds).host hh.symm
      exact (ih hbefore hfiles).update ha hbefore hfiles
    · rw [Call.host_of_ne hc] at ho ⊢
      have hr := ih (ho.before hbackends hds) hfiles
      rcases c.run_cases h s with ⟨n, heq⟩ | ⟨strict, heq⟩ | ⟨ps, hps, heq⟩ | ⟨ls, hls, heq⟩ | heq
      · rw [heq]
        refine ⟨hr.found, ?_⟩
        change Alike h ((s.layers ++ _).take 1) _
        rw [List.take_append_of_le_length (by rw [ha.layers]; omega)]
        exact hr.base
      · rw [heq]
        exact ⟨hr.found, hr.base⟩
      · rw [heq]
        exact (push_induction (P := fun t => IsAligned t ∧ Rooted h t) ⟨ha, hr⟩
          (fun t p ⟨ha, hr⟩ hp => ⟨ha.push hp, hr.push ha hp⟩) hps).2
      · rw [heq]
        exact ⟨hr.found, (hls.take 1).trans hr.base⟩
      · exact absurd heq hc

/-! ## What the complementers have returned -/

variable {directories : List Path} {layers : List Layer} {cs : List NamedComplementer}
variable {outs : List (List (List CompileCommand))}

theorem Returned.alikeButFiles (hr : Returned directories h layers cs outs h') :
    Host.AlikeButFiles (cs.flatMap fun c => directories.map c.cacheFile) h h' := by
  induction hr with
  | nil h layers => exact .refl _ h
  | cons hderive hlength hsaved hread hrest ih =>
    rw [List.flatMap_cons]
    exact (alikeButFiles_of_saved hlength hsaved).trans ih

/-- **The cache files hold what was returned**, as long as they are
apart. -/
theorem Returned.contents_cacheLayers (hr : Returned directories h layers cs outs h')
    (hapart : (cs.flatMap fun c => directories.map c.cacheFile).Pairwise h.Apart) :
    contents h' (cs.map (cacheLayer · directories)) = outs.map (List.map .ok) := by
  induction hr with
  | nil h layers => rfl
  | @cons h layers c cs out outs h' hderive hlength hsaved hread hrest ih =>
    rw [List.flatMap_cons, List.pairwise_append] at hapart
    obtain ⟨-, hlater, hcross⟩ := hapart
    have hh := alikeButFiles_of_saved hlength hsaved
    -- later complementers do not touch the files of this one
    have hkept : contents h' [cacheLayer c directories] = [out.map .ok] := by
      rw [← hread]
      refine contents_congr fun f hf => hrest.alikeButFiles.load fun p hp => ?_
      rw [unreadIn, List.flatMap_singleton, unreadAll_cacheLayer] at hf
      exact Host.AlikeBut.apart hh (hcross f hf p hp)
    have hothers := ih (hlater.imp (Host.AlikeBut.apart hh))
    rw [List.map_cons, ← List.singleton_append, contents_append, hkept, hothers]
    rfl

/-! ## Opening a database again -/

theorem foldlM_addComplementer (cs : List NamedComplementer) (t : LayeredDatabase) :
    cs.foldlM (fun t c => t.addComplementer c.name c.complementer) t =
      .ok { t with
        complementers := t.complementers ++ cs
        layers := t.layers ++ cs.map fun _ => t.directories.map fun _ => .memory [] } := by
  induction cs generalizing t with
  | nil => rw [List.foldlM_nil, List.append_nil, List.map_nil, List.append_nil]; rfl
  | cons c cs ih =>
    have hadd : t.addComplementer c.name c.complementer = .ok { t with
        complementers := t.complementers ++ [c]
        layers := t.layers ++ [t.directories.map fun _ => .memory []] } :=
      addComplementer_eq_ok.2 ⟨c.valid, rfl⟩
    rw [List.foldlM_cons, hadd]
    change cs.foldlM _ _ = _
    rw [ih]
    simp only [List.append_assoc, List.singleton_append, List.map_cons]

/-- Whether the cache files are different files, and none that the
backends look at. -/
structure HasOwnCaches (h : Host) (s : LayeredDatabase) : Prop where
  apart : s.cacheFiles.Pairwise h.Apart
  overlooked : Overlooks s.cacheFiles h s

/-- **Where the backends find all base databases and the cache files are
there**, a new database is opened over them. -/
theorem exists_reopened {bs : Backends} {cs : List NamedComplementer} {ds : List Path}
    (hfound : ∀ d ∈ ds, (bs.recognized? h d).isSome)
    (hfiles : ∀ c ∈ cs, ∀ d ∈ ds, h.isFile (c.cacheFile d) = true) :
    ∃ t t', cs.foldlM (fun t c => t.addComplementer c.name c.complementer) (new bs) = .ok t ∧
      (t.addDirectories h ds).value = .ok t' ∧
      t'.layers = [ds.map (baseAt h bs)] ++ cs.map (cacheLayer · ds) := by
  let fs : List (Path → Database) := baseAt h bs :: cs.map fun c d => .json (c.cacheFile d) none
  let ps : List ProbedDirectory := ds.map fun d => ⟨d, fs.map (· d)⟩
  let t : LayeredDatabase :=
    { new bs with complementers := [] ++ cs, layers := [[]] ++ cs.map fun _ => [] }
  have hlength : t.layers.length = fs.length := by
    change (([] : Layer) :: cs.map fun _ => ([] : Layer)).length = (_ :: cs.map _).length
    rw [List.length_cons, List.length_cons, List.length_map, List.length_map]
  have hps : (t.probeEach h ds).value = .ok ps := by
    refine probeEach_eq_ok.2 ⟨fun p hp => ?_, ?_⟩
    · obtain ⟨d, hd, rfl⟩ := List.mem_map.1 hp
      obtain ⟨⟨b, base⟩, hbase⟩ := Option.isSome_iff_exists.1 (hfound d hd)
      refine ⟨b, base, cs.map fun c => .json (c.cacheFile d) none, hbase,
        cached_of_isFile fun c hc => hfiles c hc d hd, ?_⟩
      change baseAt h bs d :: (cs.map _).map _ = _
      rw [baseAt, hbase, List.map_map]
      rfl
    · rw [List.map_map]
      exact List.map_id ds
  refine ⟨t, ps.foldl push t, foldlM_addComplementer cs (new bs), commit_eq_ok.2 ⟨ps, hps, rfl⟩, ?_⟩
  rw [foldl_push_map fs ds t hlength]
  change ds.map (baseAt h bs) :: List.zipWith _ (cs.map _) (cs.map _) = _
  rw [List.zipWith_map, List.zipWith_self]
  rfl

/-- **An update serves what has been computed, and a new database finds
it.** Every complementer was given the base layer and what the
complementers before it have left in their cache files, and the layers now
hold, after the base, exactly what each of them has returned. A new
database with the same complementers, strict about cache files, can be
opened over the same directories, and answers everything as the updated
one does. -/
theorem reopened_after_update (hs : Settled h s) (hc : HasOwnCaches h s)
    (hok : (s.update h).result.2 = none) :
    (∃ outs, Returned s.directories h (s.layers.take 1) s.complementers outs (s.update h).host ∧
      contents (s.update h).host (s.update h).result.1.layers =
        contents (s.update h).host (s.layers.take 1) ++ outs.map (List.map .ok)) ∧
    ∃ t t', s.complementers.foldlM (fun t c => t.addComplementer c.name c.complementer)
        (new s.backends) = .ok t ∧
      (t.addDirectories (s.update h).host s.directories).value = .ok t' ∧
      AnswersAs (s.update h).host (s.update h).result.1 (s.update h).host t' := by
  have ha := hs.reachable.isAligned
  have hsaved := savedFiles_update h s
  have hroot := hs.rooted hc.overlooked (List.Subset.refl _)
  have hroot' := hroot.update ha hc.overlooked (List.Subset.refl _)
  obtain ⟨ls, failure, hrun, ⟨rfl, hresult⟩ | ⟨e, -, hresult⟩⟩ := update_cases h s
  · obtain ⟨outs, houts, hls⟩ := hrun.succeeded (.refl h _) (hc.apart.sublist hsaved.sublist)
      ((hroot.clear hc.overlooked).mono (List.Subset.refl _) hsaved.subset)
    have hcaches := houts.contents_cacheLayers hc.apart
    rw [hresult] at hroot' ⊢
    refine ⟨⟨outs, houts, ?_⟩, ?_⟩
    · change contents _ ls = _
      rw [hls.contents, contents_append, hcaches]
    · have hfiles : ∀ c ∈ s.complementers, ∀ d ∈ s.directories,
          (s.update h).host.isFile (c.cacheFile d) = true := by
        intro c hc d hd
        obtain ⟨i, hi⟩ := List.mem_iff_getElem?.1 hd
        have hlayer : (cacheLayer c s.directories)[i]? = some (.json (c.cacheFile d) none) := by
          rw [cacheLayer, List.getElem?_map, hi, Option.map_some]
        obtain ⟨-, -, held, -, hload⟩ :=
          commands_of_contents hcaches (List.mem_map.2 ⟨c, hc, rfl⟩) hlayer
        obtain ⟨content, hread⟩ := Host.exists_read_of_load hload
        exact Host.isFile_of_read hread
      obtain ⟨t, t', ht, ht', hlayers⟩ := exists_reopened hroot'.found hfiles
      refine ⟨t, t', ht, ht', Alike.answersAs ?_⟩
      -- the base layer is what the backends find, before the update and after
      have hbase := (hls.take 1).symm.trans hroot'.base
      rw [List.take_append_of_le_length ha.length_take.ge, List.take_take] at hbase
      rw [hlayers]
      exact (hls.trans (hbase.append (.refl _ _))).symm
  · rw [hresult] at hok
    cases hok

/-- Both complementers of the directory are saved and found again. -/
theorem reopened_after_update_of_sample :
    Settled Sample.host (Sample.state (Sample.fixed [[]])) ∧
    HasOwnCaches Sample.host (Sample.state (Sample.fixed [[]])) ∧
    ((Sample.state (Sample.fixed [[]])).update Sample.host).result.2 = none ∧
    ∃ t t', (Sample.state (Sample.fixed [[]])).complementers.foldlM
        (fun t c => t.addComplementer c.name c.complementer) (new Backends.builtin) = .ok t ∧
      (t.addDirectories ((Sample.state (Sample.fixed [[]])).update Sample.host).host
        [⟨"/w/b"⟩]).value = .ok t' ∧
      AnswersAs ((Sample.state (Sample.fixed [[]])).update Sample.host).host
        ((Sample.state (Sample.fixed [[]])).update Sample.host).result.1
        ((Sample.state (Sample.fixed [[]])).update Sample.host).host t' := by
  obtain ⟨hbasefirst, hbasesecond, hfirstsecond⟩ := Sample.apart_files
  have hs : Settled Sample.host (Sample.state (Sample.fixed [[]])) := by
    rw [← Sample.run_calls]
    exact .call (.addDirectory _) (.call (.addComplementer _ _)
      (.call (.addComplementer _ _) (.start _ (.new _) rfl)))
  have hcaches : (Sample.state (Sample.fixed [[]])).cacheFiles =
      [⟨"/w/b/first.json"⟩, ⟨"/w/b/second.json"⟩] := by
    decide
  have hown : HasOwnCaches Sample.host (Sample.state (Sample.fixed [[]])) := by
    refine ⟨?_, overlooks_builtin rfl (List.forall_mem_singleton.2 ?_)⟩
    · rw [hcaches]
      exact List.pairwise_pair.2 hfirstsecond
    · rw [hcaches,
        show (⟨"/w/b"⟩ : Path).join ⟨baseName⟩ = ⟨"/w/b/compile_commands.json"⟩ by decide]
      exact List.forall_mem_cons.2 ⟨hbasefirst, List.forall_mem_singleton.2 hbasesecond⟩
  have hok : ((Sample.state (Sample.fixed [[]])).update Sample.host).result.2 = none := by
    refine result_update_eq_none ?_ ?_
    · exact List.forall_mem_cons.2 ⟨fun _ _ => ⟨[[Sample.derived]], rfl, rfl⟩,
        List.forall_mem_singleton.2 fun _ _ => ⟨[[]], rfl, rfl⟩⟩
    · exact fun c hc => List.forall_mem_singleton.2 (Sample.read_cacheFile _ c hc)
  exact ⟨hs, hown, hok, (reopened_after_update hs hown hok).2⟩

end LayeredDatabase

end CompileCommands
