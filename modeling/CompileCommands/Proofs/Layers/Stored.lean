import CompileCommands.Proofs.Layers.Calls
import CompileCommands.Proofs.Layers.Recompute
/-!
# Layers that are kept in files

Where only the library's own backends look for base databases, every
database of every layer is kept in a file or holds nothing, whatever calls
are made (`IsStored.run`). Such databases look a file up under its logical
path, relative paths included (`AreStored.findAll`), so that is the file
of all commands they find (`IsStored.normalizedFile_of_find`).
-/

namespace CompileCommands

variable {h : Host} {p : Path}

/-- Whether a database is kept in a file or holds nothing. -/
inductive Database.IsStored : Database → Prop
  | json (file : Path) (kept : Option (List CompileCommand)) : IsStored (.json file kept)
  | empty : IsStored (.memory [])

theorem Database.isStored_loaded {d : Database} : (d.loaded h).IsStored ↔ d.IsStored := by
  cases d with
  | json file kept => exact ⟨fun _ => .json file kept, fun _ => .json file _⟩
  | null => exact Iff.rfl
  | memory held => exact Iff.rfl
  | aggregate parts => exact ⟨nofun, nofun⟩

/-- Such a database looks a file up under its logical path. -/
theorem Database.IsStored.find {d : Database} (hd : d.IsStored) :
    d.find h p = (d.commands h).map (matching (h.logicalPath p)) := by
  cases hd <;> rfl

namespace LayeredDatabase

variable {s : LayeredDatabase} {layers ls ls' : List Layer}

/-- Whether all databases of a stack are kept in files or hold nothing. -/
def AreStored (ls : List Layer) : Prop := ∀ l ∈ ls, ∀ d ∈ l, d.IsStored

/-- Whether a database finds all it holds in files. -/
structure IsStored (s : LayeredDatabase) : Prop where
  backends : s.backends = Backends.builtin
  layers : AreStored s.layers

theorem areStored_append : AreStored (ls ++ ls') ↔ AreStored ls ∧ AreStored ls' :=
  List.forall_mem_append

theorem AreStored.take (hls : AreStored ls) (k : Nat) : AreStored (ls.take k) :=
  fun l hl => hls l (List.mem_of_mem_take hl)

theorem AreStored.drop (hls : AreStored ls) (k : Nat) : AreStored (ls.drop k) :=
  fun l hl => hls l (List.mem_of_mem_drop hl)

theorem areStored_map_loadedAll :
    AreStored (ls.map (Database.loadedAll h)) ↔ AreStored ls := by
  unfold AreStored
  rw [List.forall_mem_map]
  simp only [Database.loadedAll_eq_map, List.forall_mem_map, Database.isStored_loaded]

/-- **Reading changes nothing** about where a stack is kept. -/
theorem Alike.areStored (ha : Alike h ls ls') (hls : AreStored ls) : AreStored ls' := by
  have hloaded := (areStored_map_loadedAll (h := h)).2 hls
  rw [ha] at hloaded
  exact areStored_map_loadedAll.1 hloaded

/-! ## Calls -/

theorem areStored_cached {strict : Bool} {d : Path} {cs : List NamedComplementer}
    {found : List Database} (hfound : cached h strict d cs = .ok found) :
    ∀ x ∈ found, x.IsStored := by
  induction cs generalizing found with
  | nil =>
    cases hfound
    exact fun x hx => absurd hx List.not_mem_nil
  | cons c cs ih =>
    have hcons : ∀ x : Database, x.IsStored → (cached h strict d cs).map (x :: ·) = .ok found →
        ∀ y ∈ found, y.IsStored := by
      intro x hx hmap
      cases hrest : cached h strict d cs with
      | error e => rw [hrest] at hmap; cases hmap
      | ok rest =>
        rw [hrest] at hmap
        cases hmap
        exact List.forall_mem_cons.2 ⟨hx, ih hrest⟩
    rw [cached] at hfound
    split at hfound
    · exact hcons _ (.json _ _) hfound
    · split at hfound
      · cases hfound
      · exact hcons _ .empty hfound

/-- What is found for a directory is kept in files. -/
theorem IsProbed.isStored {p : ProbedDirectory} (hp : IsProbed h s p)
    (hbackends : s.backends = Backends.builtin) : ∀ d ∈ p.databases, d.IsStored := by
  obtain ⟨b, base, cs, hbase, hcached, hdatabases⟩ := hp
  rw [hbackends, recognized?_builtin] at hbase
  obtain ⟨base', hof, hbase⟩ := Option.map_eq_some_iff.1 hbase
  cases hbase
  rw [hdatabases]
  refine List.forall_mem_cons.2 ⟨?_, areStored_cached hcached⟩
  simp only [Database.ofDirectory?] at hof
  split at hof
  · exact Option.some.inj hof ▸ .json _ _
  · cases hof

theorem AreStored.pushEach {ds : List Database} (hls : AreStored ls)
    (hds : ∀ d ∈ ds, d.IsStored) : AreStored (pushEach ls ds) := by
  induction ls generalizing ds with
  | nil => exact hls
  | cons l ls ih =>
    cases ds with
    | nil => exact hls
    | cons d ds =>
      obtain ⟨hl, hls⟩ := List.forall_mem_cons.1 hls
      obtain ⟨hd, hds⟩ := List.forall_mem_cons.1 hds
      exact List.forall_mem_cons.2
        ⟨List.forall_mem_append.2 ⟨hl, List.forall_mem_singleton.2 hd⟩, ih hls hds⟩

theorem areStored_cacheLayer (c : NamedComplementer) (directories : List Path) :
    AreStored [cacheLayer c directories] :=
  List.forall_mem_singleton.2 (List.forall_mem_map.2 fun d _ => .json (c.cacheFile d) none)

theorem areStored_seenBy {c : NamedComplementer} (hlayers : AreStored layers) :
    AreStored (seenBy c h layers) :=
  (alike_seenBy c h layers).symm.areStored hlayers

/-- The layers that an update leaves are kept in files if those it starts
from are. -/
theorem Recomputed.areStored {directories files : List Path} {cs : List NamedComplementer}
    {h' : Host} {failure : Option DbError}
    (hr : Recomputed directories h layers cs files h' ls failure) (hlayers : AreStored layers) :
    AreStored ls := by
  induction hr with
  | done h layers => exact hlayers
  | underived hderive => exact areStored_seenBy hlayers
  | miscounted hderive hlength => exact areStored_seenBy hlayers
  | unsaved hderive hlength hsaved => exact areStored_seenBy hlayers
  | step hderive hlength hsaved hrest ih =>
    exact ih (areStored_append.2 ⟨areStored_seenBy hlayers, areStored_cacheLayer _ directories⟩)

/-- **Calls keep everything in files.** -/
theorem IsStored.run (hs : IsStored s) (h : Host) (c : Call) : IsStored (c.run h s) := by
  rcases Call.run_cases h s c with ⟨n, heq⟩ | ⟨strict, heq⟩ | ⟨ps, hps, heq⟩ | ⟨ls, ha, heq⟩ | rfl
  · -- the layer of a new complementer holds nothing yet
    rw [heq]
    refine ⟨hs.backends, areStored_append.2 ⟨hs.layers, List.forall_mem_singleton.2 ?_⟩⟩
    exact List.forall_mem_map.2 fun d _ => .empty
  · exact heq ▸ ⟨hs.backends, hs.layers⟩
  · rw [heq]
    refine push_induction hs (fun s p hs hp => ?_) hps
    exact ⟨hs.backends, hs.layers.pushEach (hp.isStored hs.backends)⟩
  · exact heq ▸ ⟨hs.backends, ha.symm.areStored hs.layers⟩
  · obtain ⟨ls, failure, hr, hresult⟩ := update_cases h s
    have hls := hr.areStored (hs.layers.take 1)
    change IsStored (s.update h).result.1
    rcases hresult with ⟨-, hresult⟩ | ⟨e, -, hresult⟩
    · exact hresult ▸ ⟨hs.backends, hls⟩
    · exact hresult ▸ ⟨hs.backends, areStored_append.2 ⟨hls.take 1, hs.layers.drop 1⟩⟩

/-! ## Looking files up -/

/-- **A stored layer looks a file up under its logical path.** -/
theorem AreStored.findAll (hls : AreStored ls) : ∀ l ∈ ls, Database.findAll h p l =
    (Database.commandsAll h l).map (Database.matching (h.logicalPath p)) := by
  intro l hl
  replace hl := hls l hl
  induction l with
  | nil => rfl
  | cons d l ih =>
    obtain ⟨hd, hl⟩ := List.forall_mem_cons.1 hl
    rw [Database.findAll, Database.commandsAll, hd.find, ih hl, Database.chain_matching]

/-- The first layer that has commands for a file has them for its path. -/
theorem normalizedFile_of_findIn {target : Path} {cs : List CompileCommand}
    (hmatch : ∀ l ∈ ls,
      Database.findAll h p l = (Database.commandsAll h l).map (Database.matching target))
    (hcs : findIn h p ls = .ok cs) : ∀ c ∈ cs, c.normalizedFile = target := by
  induction ls with
  | nil =>
    cases hcs
    exact fun c hc => absurd hc List.not_mem_nil
  | cons l ls ih =>
    obtain ⟨hl, hmatch⟩ := List.forall_mem_cons.1 hmatch
    cases hall : Database.commandsAll h l with
    | error e =>
      rw [findIn, hl, hall] at hcs
      cases hcs
    | ok all =>
      have hfound : Database.findAll h p l = .ok (Database.matching target all) := by
        rw [hl, hall]
        rfl
      rw [findIn, hfound] at hcs
      cases hmatching : Database.matching target all with
      | nil =>
        rw [hmatching] at hcs
        exact ih hmatch hcs
      | cons c found =>
        rw [hmatching] at hcs
        cases hcs
        rw [← hmatching]
        exact fun c hc => eq_of_beq (List.mem_filter.1 hc).2

theorem find_eq_ok {unique : Bool} {cs : List CompileCommand} :
    s.find h unique p = .ok cs ↔
      ∃ found, findIn h p s.layers = .ok found ∧ cs = if unique then found.take 1 else found := by
  unfold find
  cases findIn h p s.layers <;> simp [Except.map, eq_comm]

/-- **A lookup finds commands for the logical path.** -/
theorem IsStored.normalizedFile_of_find (hs : IsStored s) {unique : Bool}
    {cs : List CompileCommand} (hcs : s.find h unique p = .ok cs) :
    ∀ c ∈ cs, c.normalizedFile = h.logicalPath p := by
  obtain ⟨found, hfound, rfl⟩ := find_eq_ok.1 hcs
  have hall : ∀ c ∈ found, c.normalizedFile = h.logicalPath p :=
    normalizedFile_of_findIn hs.layers.findAll hfound
  intro c hc
  split at hc
  · exact hall c (List.mem_of_mem_take hc)
  · exact hall c hc

end LayeredDatabase

end CompileCommands
