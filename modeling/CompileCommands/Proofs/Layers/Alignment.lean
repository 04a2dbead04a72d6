import CompileCommands.Proofs.Headers.Closure
import CompileCommands.Proofs.Layers.Calls
import CompileCommands.Proofs.Layers.Recompute
/-!
# The shape of the layers

There is one layer more than there are complementers, and every layer has
a database for each build directory, whatever calls have been made, on
whatever hosts, and whether they failed or not
(`isAligned_of_reachable`). So what headers are inferred from is a stack
of even layers, and the inference gives each directory its list.
-/

namespace CompileCommands

namespace LayeredDatabase

variable {h h' : Host} {s : LayeredDatabase} {ls : List Layer} {n : Nat}

/-- Whether the layers fit the complementers and the build directories. -/
structure IsAligned (s : LayeredDatabase) : Prop where
  layers : s.layers.length = s.complementers.length + 1
  databases : ∀ l ∈ s.layers, l.length = s.directories.length

theorem isAligned_new (backends : Backends) : IsAligned (new backends) :=
  ⟨rfl, List.forall_mem_singleton.2 rfl⟩

theorem IsAligned.addLayer (hs : IsAligned s) (c : NamedComplementer) :
    IsAligned { s with
      complementers := s.complementers ++ [c]
      layers := s.layers ++ [s.directories.map fun _ => .memory []] } where
  layers := by
    rw [List.length_append, List.length_append, hs.layers, List.length_singleton,
      List.length_singleton]
  databases := List.forall_mem_append.2
    ⟨hs.databases, List.forall_mem_singleton.2 (List.length_map ..)⟩

theorem IsAligned.push {p : ProbedDirectory} (hs : IsAligned s) (hp : IsProbed h s p) :
    IsAligned (s.push p) where
  layers := (length_pushEach _ _).trans hs.layers
  databases := by
    intro l hl
    obtain ⟨m, hm, d, -, rfl⟩ :=
      exists_of_mem_pushEach (hp.length_databases.trans hs.layers.symm) hl
    change _ = (s.directories ++ [p.directory]).length
    rw [List.length_append, List.length_append, hs.databases m hm, List.length_singleton,
      List.length_singleton]

theorem IsAligned.alike (hs : IsAligned s) (ha : Alike h ls s.layers) :
    IsAligned { s with layers := ls } :=
  ⟨ha.length_eq.trans hs.layers, ha.symm.forall_length hs.databases⟩

theorem IsAligned.length_take (hs : IsAligned s) : (s.layers.take 1).length = 1 := by
  rw [List.length_take, hs.layers]
  omega

/-- **An update keeps the shape**, also one that fails with the stack taken
apart. -/
theorem IsAligned.update (hs : IsAligned s) (h : Host) : IsAligned (s.update h).result.1 := by
  obtain ⟨ls, failure, hr, hresult⟩ := update_cases h s
  have hbase : ∀ l ∈ s.layers.take 1, l.length = s.directories.length :=
    fun l hl => hs.databases l (List.mem_of_mem_take hl)
  have hlengths := hr.forall_length hbase
  rcases hresult with ⟨rfl, hresult⟩ | ⟨e, -, hresult⟩
  · rw [hresult]
    refine ⟨hr.length_eq.trans ?_, hlengths⟩
    rw [hs.length_take, Nat.add_comm]
  · rw [hresult]
    refine ⟨?_, List.forall_mem_append.2 ⟨fun l hl => hlengths l (List.mem_of_mem_take hl),
      fun l hl => hs.databases l (List.mem_of_mem_drop hl)⟩⟩
    have hle := hr.length_le
    rw [hs.length_take] at hle
    change (ls.take 1 ++ s.layers.drop 1).length = s.complementers.length + 1
    rw [List.length_append, List.length_take, List.length_drop, hs.layers]
    omega

/-- **Every call keeps the shape.** -/
theorem IsAligned.run (hs : IsAligned s) (h : Host) (c : Call) : IsAligned (c.run h s) := by
  rcases c.run_cases h s with ⟨n, heq⟩ | ⟨strict, heq⟩ | ⟨ps, hps, heq⟩ | ⟨ls, ha, heq⟩ | rfl
  · rw [heq]
    exact hs.addLayer n
  · rw [heq]
    exact ⟨hs.layers, hs.databases⟩
  · rw [heq]
    exact push_induction hs (fun s p hs hp => hs.push hp) hps
  · rw [heq]
    exact hs.alike ha
  · exact hs.update h

theorem Reachable.isAligned (hs : Reachable s) : IsAligned s := by
  induction hs with
  | new backends => exact isAligned_new backends
  | call h c _ ih => exact ih.run h c

end LayeredDatabase

/-! ## Failures that no reading causes -/

/-- Whether an error is about the number of lists that were derived. -/
def DbError.IsMiscount (e : DbError) : Prop := ∃ name n m, e = .layerCount name n m

theorem CommandFile.not_isMiscount_load {file : Path} {e : DbError}
    (hload : CommandFile.load h file = .error e) : ¬ e.IsMiscount := by
  rintro ⟨name, n, m, rfl⟩
  unfold CommandFile.load at hload
  split at hload
  · unfold CommandFile.parse at hload
    split at hload
    · cases hload
    · split at hload <;> cases hload
  · cases hload
  · cases hload

namespace Database

theorem not_isMiscount_chain {α : Type} {a b : Except DbError (List α)} {e : DbError}
    (ha : ∀ e, a = .error e → ¬ e.IsMiscount) (hb : ∀ e, b = .error e → ¬ e.IsMiscount)
    (hchain : chain a b = .error e) : ¬ e.IsMiscount := by
  unfold chain at hchain
  cases a with
  | error e' => exact ha e hchain
  | ok xs =>
    cases b with
    | error e' => exact hb e hchain
    | ok ys => cases hchain

mutual

/-- Reading a database cannot fail like that. -/
theorem not_isMiscount_commands {e : DbError} : ∀ d : Database,
    d.commands h = .error e → ¬ e.IsMiscount
  | null, he => by cases he
  | memory _, he => by cases he
  | json _ (some _), he => by cases he
  | json _ none, he => CommandFile.not_isMiscount_load he
  | aggregate parts, he => not_isMiscount_commandsAll parts he

theorem not_isMiscount_commandsAll {e : DbError} : ∀ ds : List Database,
    commandsAll h ds = .error e → ¬ e.IsMiscount
  | [], he => by cases he
  | d :: ds, he => not_isMiscount_chain (fun _ => not_isMiscount_commands d)
      (fun _ => not_isMiscount_commandsAll ds) he

end

end Database

namespace LayeredDatabase

/-! ## Headers -/

/-- Whether inferring headers from a stack finds lenders in directories
below `n` only, gives `n` lists, and does not fail as if it had not. -/
structure InfersFor (h : Host) (ls : List Layer) (n : Nat) : Prop where
  inRange : ∀ css, readable (contents h ls) = .ok css →
    ∀ f ∈ Inference.found (Inference.run h css), f.lender.directory < n
  length : ∀ out, (inferHeaders h (contents h ls)).value = .ok out → out.length = n
  noMiscount : ∀ e, (inferHeaders h (contents h ls)).value = .error e → ¬ e.IsMiscount

theorem length_head_contents (hne : ls ≠ []) (hls : ∀ l ∈ ls, l.length = n) :
    ((contents h ls).head?.getD []).length = n := by
  obtain ⟨l, ls, rfl⟩ := List.exists_cons_of_ne_nil hne
  rw [contents, List.map_cons, List.head?_cons, Option.getD_some, List.length_map]
  exact hls l (List.mem_cons_self ..)

/-- **An even stack gives each directory its list.** -/
theorem infersFor_of_length (hne : ls ≠ []) (hls : ∀ l ∈ ls, l.length = n) :
    InfersFor h ls n where
  inRange := by
    intro css hcss f hf
    have hread := readable_eq_ok.1 hcss
    refine Inference.directory_lt_of_found (fun s hs => ?_) hf
    have hlt := directory_lt_of_holds hls ((mem_sources hread).1 hs)
    rwa [length_head_contents hne hls] at hlt
  length := by
    intro out hout
    obtain ⟨css, -, rfl⟩ := inferHeaders_eq_ok.1 hout
    rw [List.length_map, List.length_range, length_head_contents hne hls]
  noMiscount := by
    intro e he
    unfold inferHeaders at he
    cases hread : readable (contents h ls) with
    | ok css => rw [hread] at he; cases he
    | error e' =>
      rw [hread] at he
      cases he
      obtain ⟨ds, hds, he⟩ := mapM_eq_error hread
      obtain ⟨d, hd, he⟩ := mapM_eq_error he
      obtain ⟨l, -, rfl⟩ := List.mem_map.1 hds
      obtain ⟨d, -, rfl⟩ := List.mem_map.1 hd
      exact Database.not_isMiscount_commands d he

/-! ## Complementers at their turn -/

/-- The host and the layers that a complementer is given in the course of
an update. -/
inductive Asked (directories : List Path) : Host → List Layer → List NamedComplementer →
    NamedComplementer → Host → List Layer → Prop
  | first (h : Host) (layers : List Layer) (c : NamedComplementer) (cs : List NamedComplementer) :
      Asked directories h layers (c :: cs) c h layers
  | later {h layers c cs out c' h' ls}
      (hderive : (c.complementer.derive h (contents h layers)).value = .ok out)
      (hlength : out.length = directories.length)
      (hsaved : (saveAll c h (out.zip directories)).result = none)
      (hrest : Asked directories (saveAll c h (out.zip directories)).host
        (seenBy c h layers ++ [cacheLayer c directories]) cs c' h' ls) :
      Asked directories h layers (c :: cs) c' h' ls

/-- Every complementer is given an even stack. -/
theorem Asked.infersFor {directories : List Path} {layers : List Layer}
    {cs : List NamedComplementer} {c : NamedComplementer}
    (ha : Asked directories h layers cs c h' ls) (hne : layers ≠ [])
    (hlayers : ∀ l ∈ layers, l.length = directories.length) :
    InfersFor h' ls directories.length := by
  induction ha with
  | first h layers c cs => exact infersFor_of_length hne hlayers
  | later hderive hlength hsaved hrest ih =>
    exact ih seenBy_append_ne_nil (forall_length_seenBy_append hlayers)

/-- **A miscount is never the fault of the headers.** -/
theorem exists_of_isMiscount {directories files : List Path} {layers : List Layer}
    {cs : List NamedComplementer} {e : DbError}
    (hr : Recomputed directories h layers cs files h' ls (some e)) (hne : layers ≠ [])
    (hlayers : ∀ l ∈ layers, l.length = directories.length) (he : e.IsMiscount) :
    ∃ c ∈ cs, c.complementer ≠ .headers := by
  generalize hsome : some e = failure at hr
  induction hr with
  | done h layers => cases hsome
  | @underived h layers c cs e' hderive =>
    cases hsome
    refine ⟨c, List.mem_cons_self .., fun hc => ?_⟩
    rw [hc] at hderive
    exact (infersFor_of_length hne hlayers).noMiscount e hderive he
  | @miscounted h layers c cs out hderive hlength =>
    refine ⟨c, List.mem_cons_self .., fun hc => ?_⟩
    rw [hc] at hderive
    exact hlength ((infersFor_of_length hne hlayers).length out hderive)
  | unsaved hderive hlength hsaved =>
    cases hsome
    obtain ⟨f, e', rfl⟩ := eq_io_of_saveAll hsaved
    obtain ⟨name, n, m, heq⟩ := he
    cases heq
  | @step h layers c cs out files h' ls failure hderive hlength hsaved hrest ih =>
    obtain ⟨c', hc', hne'⟩ := ih seenBy_append_ne_nil (forall_length_seenBy_append hlayers) hsome
    exact ⟨c', List.mem_cons_of_mem _ hc', hne'⟩

/-- **The layers fit in every reachable state.** There is one more than
there are complementers, each with a database for every build directory.
So headers are inferred for these directories, from the layers of a state
and from those that a complementer is given in the course of an update,
and an update never finds a list too many or too few unless another
complementer has been added. -/
theorem isAligned_of_reachable (hs : Reachable s) :
    s.layers.length = s.complementers.length + 1 ∧
    (∀ l ∈ s.layers, l.length = s.directories.length) ∧
    ∀ h, InfersFor h s.layers s.directories.length ∧
      (∀ c h' ls, Asked s.directories h (s.layers.take 1) s.complementers c h' ls →
        InfersFor h' ls s.directories.length) ∧
      ∀ e, (s.update h).result.2 = some e → e.IsMiscount →
        ∃ c ∈ s.complementers, c.complementer ≠ .headers := by
  have haligned := hs.isAligned
  have hne : s.layers ≠ [] := by
    rintro hnil
    have hlength := haligned.layers
    rw [hnil] at hlength
    exact absurd hlength (Nat.succ_ne_zero _).symm
  have hbase : s.layers.take 1 ≠ [] := by
    intro hnil
    have hlength := haligned.length_take
    rw [hnil] at hlength
    cases hlength
  have hlengths : ∀ l ∈ s.layers.take 1, l.length = s.directories.length :=
    fun l hl => haligned.databases l (List.mem_of_mem_take hl)
  refine ⟨haligned.layers, haligned.databases, fun h => ⟨?_, ?_, ?_⟩⟩
  · exact infersFor_of_length hne haligned.databases
  · exact fun c h' ls ha => ha.infersFor hbase hlengths
  · intro e he hmiscount
    obtain ⟨ls, failure, hr, hresult⟩ := update_cases h s
    rcases hresult with ⟨-, hresult⟩ | ⟨e', rfl, hresult⟩
    · rw [hresult] at he
      cases he
    · rw [hresult] at he
      cases he
      exact exists_of_isMiscount hr hbase hlengths hmiscount

/-! ## A build directory with two complementers -/

namespace Sample

/-- A build directory with a base database and two cache files. -/
def tree (base first second : ByteArray) : FileTree where
  entries := [(["w"], .directory), (["w", "b"], .directory),
    (["w", "b", "compile_commands.json"], .file base), (["w", "b", "first.json"], .file first),
    (["w", "b", "second.json"], .file second)]
  distinct := by simp
  proper := by simp; decide
  closed := by simp

def hostOf (base first second : ByteArray) : Host :=
  ⟨tree base first second, some [], none, none, none⟩

def command : CompileCommand := ⟨⟨"/w/b"⟩, ⟨"a.c"⟩, ["cc", "-c", "a.c"], none⟩

def derived : CompileCommand := ⟨⟨"/w/b"⟩, ⟨"a.h"⟩, ["cc", "-c", "a.h"], none⟩

/-- The base database holds a command, and the cache files hold none. -/
def host : Host :=
  hostOf (CommandFile.render [command]).toUTF8 (CommandFile.render []).toUTF8
    (CommandFile.render []).toUTF8

/-- The complementer that derives the given lists. -/
def fixed (out : List (List CompileCommand)) : Complementer :=
  ⟨fun _ _ => .silent (.ok out), fun _ _ _ => false⟩

/-- The complementer that cannot derive anything. -/
def failing : Complementer :=
  ⟨fun _ _ => .silent (.error (.io ⟨"fail"⟩ (.other "boom"))), fun _ _ _ => false⟩

def first : NamedComplementer := ⟨"first", fixed [[derived]], by decide⟩

def second (c : Complementer) : NamedComplementer := ⟨"second", c, by decide⟩

/-- The directory has been added after two complementers, the first of
which derives one command. -/
def state (c : Complementer) : LayeredDatabase where
  backends := Backends.builtin
  complementers := [first, second c]
  layers := [[.json ⟨"/w/b/compile_commands.json"⟩ none], cacheLayer first [⟨"/w/b"⟩],
    cacheLayer (second c) [⟨"/w/b"⟩]]
  directories := [⟨"/w/b"⟩]
  strict := true

theorem cacheFile_first : first.cacheFile ⟨"/w/b"⟩ = ⟨"/w/b/first.json"⟩ := by decide

theorem cacheFile_second (c : Complementer) :
    (second c).cacheFile ⟨"/w/b"⟩ = ⟨"/w/b/second.json"⟩ := by
  change (⟨"/w/b"⟩ : Path).join ⟨"second" ++ ".json"⟩ = _
  decide

variable {base held held' : ByteArray}

theorem locate_files :
    (hostOf base held held').locate ⟨"/w/b/compile_commands.json"⟩ =
        .ok (["w", "b", "compile_commands.json"], .file base) ∧
      (hostOf base held held').locate ⟨"/w/b/first.json"⟩ =
        .ok (["w", "b", "first.json"], .file held) ∧
      (hostOf base held held').locate ⟨"/w/b/second.json"⟩ =
        .ok (["w", "b", "second.json"], .file held') := by
  have hlocate : ∀ {n : String} {content : ByteArray},
      (["w", "b", n], .file content) ∈ (tree base held held').entries →
        (hostOf base held held').locate (Place.absolute ["w", "b", n]).toPath =
          .ok (["w", "b", n], .file content) := fun hmem => Host.locate_toPath hmem
  refine ⟨?_, ?_, ?_⟩
  · exact hlocate (n := "compile_commands.json") (by simp [tree])
  · exact hlocate (n := "first.json") (by simp [tree])
  · exact hlocate (n := "second.json") (by simp [tree])

theorem apart_files :
    host.Apart ⟨"/w/b/compile_commands.json"⟩ ⟨"/w/b/first.json"⟩ ∧
      host.Apart ⟨"/w/b/compile_commands.json"⟩ ⟨"/w/b/second.json"⟩ ∧
      host.Apart ⟨"/w/b/first.json"⟩ ⟨"/w/b/second.json"⟩ :=
  ⟨Host.apart_of_locate locate_files.1 locate_files.2.1 (by decide),
    Host.apart_of_locate locate_files.1 locate_files.2.2 (by decide),
    Host.apart_of_locate locate_files.2.1 locate_files.2.2 (by decide)⟩

theorem read_cacheFile (c : Complementer) : ∀ n ∈ (state c).complementers,
    ∃ content, (hostOf base held held').read (n.cacheFile ⟨"/w/b"⟩) = .ok content := by
  refine List.forall_mem_cons.2 ⟨⟨held, ?_⟩, List.forall_mem_singleton.2 ⟨held', ?_⟩⟩
  · rw [cacheFile_first, Host.read, locate_files.2.1]
  · rw [cacheFile_second, Host.read, locate_files.2.2]

theorem ofDirectory?_eq : Database.ofDirectory? (hostOf base held held') ⟨"/w/b"⟩ =
    some (.json ⟨"/w/b/compile_commands.json"⟩ none) := by
  have hfile : (⟨"/w/b"⟩ : Path).join ⟨"compile_commands.json"⟩ =
      ⟨"/w/b/compile_commands.json"⟩ := by
    decide
  have hexists : (hostOf base held held').pathExists ⟨"/w/b/compile_commands.json"⟩ = true := by
    rw [Host.pathExists, locate_files.1]
    rfl
  rw [Database.ofDirectory?, hfile]
  exact if_pos hexists

/-- The calls that lead there, the directory last. -/
theorem run_calls (c : Complementer) :
    (Call.addDirectory ⟨"/w/b"⟩).run host ((Call.addComplementer "second" c).run host
      ((Call.addComplementer "first" (fixed [[derived]])).run host (new Backends.builtin))) =
        state c := by
  have hprobe : ((state c).backends.probe host ⟨"/w/b"⟩).value =
      .ok (.json ⟨"/w/b/compile_commands.json"⟩ none) := by
    refine probe_backends_eq_ok.2 ⟨.json, (recognized?_builtin host ⟨"/w/b"⟩).trans ?_⟩
    rw [host, ofDirectory?_eq, Option.map_some]
  have hfiles : ∀ n ∈ (state c).complementers, host.isFile (n.cacheFile ⟨"/w/b"⟩) = true := by
    intro n hn
    obtain ⟨content, hread⟩ := read_cacheFile c n hn
    exact Host.isFile_of_read hread
  have hempty : (Call.addComplementer "second" c).run host
      ((Call.addComplementer "first" (fixed [[derived]])).run host (new Backends.builtin)) =
        { state c with layers := [[], [], []], directories := [] } := rfl
  rw [hempty,
    run_addDirectory_of_found (s := { state c with layers := [[], [], []], directories := [] })
      hprobe (cached_of_isFile hfiles)]
  rfl

theorem reachable_state (c : Complementer) : Reachable (state c) :=
  run_calls c ▸ .call _ _ (.call _ _ (.call _ _ (.new _)))

end Sample

/-- After an update that fails at the second complementer. -/
theorem isAligned_of_failing_sample :
    Reachable ((Sample.state Sample.failing).update Sample.host).result.1 ∧
    ((Sample.state Sample.failing).update Sample.host).result.1.layers.length =
      ((Sample.state Sample.failing).update Sample.host).result.1.complementers.length + 1 :=
  have hs := Reachable.call Sample.host .update (Sample.reachable_state Sample.failing)
  ⟨hs, (isAligned_of_reachable hs).1⟩

end LayeredDatabase

end CompileCommands
