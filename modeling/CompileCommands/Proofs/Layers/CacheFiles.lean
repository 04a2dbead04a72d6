import CompileCommands.Headers.Inference
import CompileCommands.Proofs.Host.Spots
import CompileCommands.Proofs.Layers.Reachable
/-!
# Cache files

Where the cache files of a layered database stand. A complementer and a
directory share one with another pair, or with the base database of a
directory, exactly when something is registered twice or a complementer
is called like a base database, and nothing that registers either looks
whether it is (`cacheFiles_apart_iff`, `cacheFiles_shared`).
-/

namespace CompileCommands

open Component

/-! ## Names of cache files -/

namespace NamedComplementer

variable {c c' : NamedComplementer} {d d' : Path}

theorem slash_not_mem_name (c : NamedComplementer) : '/' ∉ c.name.toList := by
  intro hslash
  have hvalid := c.valid
  simp only [isComplementerName, Bool.and_eq_true, List.all_eq_true] at hvalid
  rcases Text.mem_fields_or (· == '_') hslash with hsep | ⟨f, hf, hmem⟩
  · exact absurd hsep (by decide)
  · exact absurd ((hvalid.2 f hf).2 '/' hmem) (by decide)

theorem toList_cacheName (c : NamedComplementer) :
    c.cacheName.toList = c.name.toList ++ ".json".toList := String.toList_append ..

/-- A cache file has a name of its own in its directory. -/
theorem isName_cacheName (c : NamedComplementer) : IsName c.cacheName := by
  -- the ending alone is longer than `.` and `..`
  have hlength : 5 ≤ c.cacheName.toList.length := by
    rw [toList_cacheName, List.length_append]
    exact Nat.le_add_left _ _
  refine ⟨?_, ?_⟩
  · rw [ofPiece?_of_ne, String.ofList_toList] <;> (intro heq; simp [heq] at hlength)
  · rw [toList_cacheName, List.mem_append]
    rintro (hslash | hslash)
    · exact c.slash_not_mem_name hslash
    · exact absurd hslash (by decide)

theorem cacheName_inj : c.cacheName = c'.cacheName ↔ c.name = c'.name := by
  rw [← String.toList_inj, toList_cacheName, toList_cacheName, List.append_cancel_right_eq,
    String.toList_inj]

/-- **Two cache files are one** only for one name and one directory. -/
theorem same_cacheFile_eq_false :
    (c.cacheFile d).same (c'.cacheFile d') = false ↔
      (c.name = c'.name → d.same d' = false) := by
  rw [← Bool.not_eq_true, cacheFile, cacheFile,
    Path.same_join_name c.isName_cacheName c'.isName_cacheName, cacheName_inj, not_and,
    Bool.not_eq_true]

end NamedComplementer

namespace LayeredDatabase

variable {s : LayeredDatabase} {h : Host}

/-! ## The files of a layered database -/

/-- The cache files, complementer by complementer and directory by
directory. -/
def cacheFiles (s : LayeredDatabase) : List Path :=
  s.complementers.flatMap fun c => s.directories.map c.cacheFile

/-- The name of a base database. -/
def baseName : String := "compile_commands.json"

/-- The base databases that stand in the directories. -/
def baseFiles (s : LayeredDatabase) : List Path := s.directories.map fun d => d.join ⟨baseName⟩

/-- Whether files are different paths from one another and from the base
databases. -/
def AreApart (s : LayeredDatabase) (files : List Path) : Prop :=
  files.Pairwise (fun p q => p.same q = false) ∧
    ∀ p ∈ files, ∀ q ∈ s.baseFiles, p.same q = false

theorem isName_baseName : IsName baseName := ⟨by decide, by decide⟩

theorem cacheName_eq_baseName {c : NamedComplementer} :
    c.cacheName = baseName ↔ c.name = "compile_commands" := by
  rw [baseName, ← String.toList_inj, NamedComplementer.toList_cacheName,
    show "compile_commands.json".toList = "compile_commands".toList ++ ".json".toList by decide,
    List.append_cancel_right_eq, String.toList_inj]

/-- A cache file is a base database only by its name. -/
theorem same_baseFile_eq_false {c : NamedComplementer} {d e : Path} :
    (c.cacheFile d).same (e.join ⟨baseName⟩) = false ↔
      (c.name = "compile_commands" → d.same e = false) := by
  rw [← Bool.not_eq_true, NamedComplementer.cacheFile,
    Path.same_join_name c.isName_cacheName isName_baseName, cacheName_eq_baseName, not_and,
    Bool.not_eq_true]

/-! ## When they are apart -/

theorem same_self (p : Path) : p.same p = true := beq_self_eq_true _

/-- The cache files of one complementer are those of different
directories. -/
theorem pairwise_cacheFile_iff (c : NamedComplementer) (ds : List Path) :
    (ds.map c.cacheFile).Pairwise (fun p q => p.same q = false) ↔
      ds.Pairwise fun d e => d.same e = false := by
  rw [List.pairwise_map]
  refine List.Pairwise.iff fun d e => ?_
  rw [NamedComplementer.same_cacheFile_eq_false]
  exact ⟨fun h => h rfl, fun h _ => h⟩

/-- Two complementers share no cache file if they share no name. -/
theorem cacheFile_ne_iff {c c' : NamedComplementer} {ds : List Path} (hne : ds ≠ []) :
    (∀ p ∈ ds.map c.cacheFile, ∀ q ∈ ds.map c'.cacheFile, p.same q = false) ↔
      c.name ≠ c'.name := by
  constructor
  · intro hapart hname
    -- any directory tells names apart
    obtain ⟨d, hd⟩ := List.exists_mem_of_ne_nil ds hne
    have hself := hapart _ (List.mem_map.2 ⟨d, hd, rfl⟩) _ (List.mem_map.2 ⟨d, hd, rfl⟩)
    rw [NamedComplementer.same_cacheFile_eq_false, same_self] at hself
    exact absurd (hself hname) Bool.noConfusion
  · intro hname p hp q hq
    obtain ⟨d, -, rfl⟩ := List.mem_map.1 hp
    obtain ⟨e, -, rfl⟩ := List.mem_map.1 hq
    exact NamedComplementer.same_cacheFile_eq_false.2 fun heq => absurd heq hname

/-- **The cache files are pairwise different** if no directory and no name
is there twice. -/
theorem pairwise_cacheFiles_iff (hne : s.directories ≠ []) :
    s.cacheFiles.Pairwise (fun p q => p.same q = false) ↔
      (s.complementers = [] ∨ s.directories.Pairwise fun d e => d.same e = false) ∧
        (s.complementers.map (·.name)).Nodup := by
  rw [cacheFiles, List.pairwise_flatMap, List.Nodup, List.pairwise_map]
  refine and_congr ?_ (List.Pairwise.iff fun c c' => cacheFile_ne_iff hne)
  constructor
  · intro hall
    refine or_iff_not_imp_left.2 fun hsome => ?_
    obtain ⟨c, hc⟩ := List.exists_mem_of_ne_nil _ hsome
    exact (pairwise_cacheFile_iff c _).1 (hall c hc)
  · rintro (hnil | hdirs) c hc
    · rw [hnil] at hc
      exact absurd hc List.not_mem_nil
    · exact (pairwise_cacheFile_iff c _).2 hdirs

/-- **None of them is a base database** if none is called like one. -/
theorem cacheFiles_ne_baseFiles_iff (hne : s.directories ≠ []) :
    (∀ p ∈ s.cacheFiles, ∀ q ∈ s.baseFiles, p.same q = false) ↔
      "compile_commands" ∉ s.complementers.map (·.name) := by
  constructor
  · intro hapart hmem
    obtain ⟨c, hc, hname⟩ := List.mem_map.1 hmem
    obtain ⟨d, hd⟩ := List.exists_mem_of_ne_nil _ hne
    have hself := hapart _ (List.mem_flatMap.2 ⟨c, hc, List.mem_map.2 ⟨d, hd, rfl⟩⟩) _
      (List.mem_map.2 ⟨d, hd, rfl⟩)
    rw [same_baseFile_eq_false, same_self] at hself
    exact absurd (hself hname) Bool.noConfusion
  · intro hmem p hp q hq
    obtain ⟨c, hc, hp⟩ := List.mem_flatMap.1 hp
    obtain ⟨d, -, rfl⟩ := List.mem_map.1 hp
    obtain ⟨e, -, rfl⟩ := List.mem_map.1 hq
    exact same_baseFile_eq_false.2 fun hname => absurd (List.mem_map.2 ⟨c, hc, hname⟩) hmem

/-! ## What an update writes -/

/-- The files that an update has set out to write, in order. -/
def savedFiles (notes : List UpdateNote) : List Path :=
  notes.filterMap fun note =>
    match note with
    | .event (.saving file) => some file
    | _ => none

theorem savedFiles_append (ms ns : List UpdateNote) :
    savedFiles (ms ++ ns) = savedFiles ms ++ savedFiles ns :=
  List.filterMap_append

/-- Before a complementer saves anything it only starts and logs. -/
theorem savedFiles_started (name : String) (lines : List LogLine) :
    savedFiles (.event (.started name) :: lines.map UpdateNote.log) = [] := by
  induction lines with
  | nil => rfl
  | cons line lines ih => exact ih

section

variable {c : NamedComplementer} {h' : Host} {commands : List CompileCommand} {d : Path}
variable {work : List (List CompileCommand × Path)}

/-- A cache file that is written is followed by the others. -/
theorem saveAll_of_write
    (hwrite : h.write (c.cacheFile d) (CommandFile.render commands).toUTF8 = .ok h') :
    saveAll c h ((commands, d) :: work) =
      ⟨.event (.saving (c.cacheFile d)) :: (saveAll c h' work).notes,
        (saveAll c h' work).host, (saveAll c h' work).result⟩ := by
  rw [saveAll]
  simp only [hwrite]

/-- One that cannot be written is the last. -/
theorem saveAll_of_error {e : IoError}
    (hwrite : h.write (c.cacheFile d) (CommandFile.render commands).toUTF8 = .error e) :
    saveAll c h ((commands, d) :: work) =
      ⟨[.event (.saving (c.cacheFile d))], h, some (.io (c.cacheFile d) e)⟩ := by
  rw [saveAll]
  simp only [hwrite]

end

/-- The cache files of a complementer are written in order, up to one
that cannot be. -/
theorem savedFiles_saveAll (c : NamedComplementer) (h : Host)
    (work : List (List CompileCommand × Path)) :
    savedFiles (saveAll c h work).notes <+: work.map (fun w => c.cacheFile w.2) ∧
      ((saveAll c h work).result = none →
        savedFiles (saveAll c h work).notes = work.map fun w => c.cacheFile w.2) := by
  induction work generalizing h with
  | nil => exact ⟨List.nil_prefix, fun _ => rfl⟩
  | cons w work ih =>
    obtain ⟨commands, d⟩ := w
    cases hwrite : h.write (c.cacheFile d) (CommandFile.render commands).toUTF8 with
    | error e =>
      -- the file is announced before it is written
      rw [saveAll_of_error hwrite]
      refine ⟨?_, fun hnone => by cases hnone⟩
      exact List.prefix_append [c.cacheFile d] _
    | ok h' =>
      obtain ⟨hfirst, hall⟩ := ih h'
      rw [saveAll_of_write hwrite]
      refine ⟨?_, fun hnone => ?_⟩
      · exact (List.prefix_cons_inj _).2 hfirst
      · exact congrArg (c.cacheFile d :: ·) (hall hnone)

/-- **An update writes cache files only**, each at its turn and up to the
first failure. -/
theorem savedFiles_recompute (directories : List Path) (h : Host) (layers : List Layer)
    (cs : List NamedComplementer) :
    savedFiles (recompute directories h layers cs).notes <+:
      cs.flatMap fun c => directories.map c.cacheFile := by
  induction cs generalizing h layers with
  | nil => exact List.nil_prefix
  | cons c cs ih =>
    unfold recompute
    cases hderived : (c.complementer.derive h (contents h layers)).value with
    | error e =>
      simp only [hderived, savedFiles_started]
      exact List.nil_prefix
    | ok commands =>
      by_cases hlength : commands.length = directories.length
      · have hwork : (commands.zip directories).map (fun w => c.cacheFile w.2) =
            directories.map c.cacheFile := by
          rw [← List.map_snd_zip (Nat.le_of_eq hlength.symm), List.map_map,
            List.map_snd_zip (Nat.le_of_eq hlength.symm)]
          rfl
        obtain ⟨hfirst, hall⟩ := savedFiles_saveAll c h (commands.zip directories)
        rw [hwork] at hfirst hall
        simp only [hderived, hlength, ne_eq, not_true_eq_false, if_false]
        cases hsaved : (saveAll c h (commands.zip directories)).result with
        | some e =>
          -- some of the complementer's files may have been written
          simp only [savedFiles_append, savedFiles_started, List.nil_append, List.flatMap_cons]
          exact hfirst.trans (List.prefix_append _ _)
        | none =>
          simp only [savedFiles_append, savedFiles_started, List.nil_append, List.flatMap_cons,
            hall hsaved]
          exact (List.prefix_append_right_inj _).2 (ih _ _)
      · simp only [hderived, hlength, ne_eq, not_false_eq_true, if_true, savedFiles_started]
        exact List.nil_prefix

/-- What an update tells, leaves and fails with is what recomputing the
layers on the base does. -/
theorem update_eq (h : Host) (s : LayeredDatabase) :
    (s.update h).notes = (recompute s.directories h (s.layers.take 1) s.complementers).notes ∧
      (s.update h).host = (recompute s.directories h (s.layers.take 1) s.complementers).host ∧
      (s.update h).result.2 =
        (recompute s.directories h (s.layers.take 1) s.complementers).result.2 := by
  unfold update
  cases hresult : (recompute s.directories h (s.layers.take 1) s.complementers).result with
  | mk layers failure => cases failure <;> simp only [hresult, and_self]

theorem savedFiles_update (h : Host) (s : LayeredDatabase) :
    savedFiles (s.update h).notes <+: s.cacheFiles := by
  rw [(update_eq h s).1]
  exact savedFiles_recompute s.directories h (s.layers.take 1) s.complementers

/-- **When no cache file is shared.** If there is anything to pair, no name
and no directory may be registered twice, and no complementer be called
like a base database. Then the paths that one update writes are different
from one another and from those of the base databases. They are compared
as paths: a relative and an absolute one that lead to the same file are
different. -/
theorem cacheFiles_apart_iff (s : LayeredDatabase) :
    (s.AreApart s.cacheFiles ↔
      (s.directories = [] ∨ (s.complementers.map (·.name)).Nodup ∧
        "compile_commands" ∉ s.complementers.map (·.name)) ∧
      (s.complementers = [] ∨ s.directories.Pairwise fun d e => d.same e = false)) ∧
    (s.AreApart s.cacheFiles → ∀ h, s.AreApart (savedFiles (s.update h).notes)) := by
  refine ⟨?_, fun hapart h => ?_⟩
  · by_cases hnone : s.directories = []
    · have hempty : s.cacheFiles = [] := by
        simp [cacheFiles, hnone]
      simp [AreApart, hempty, hnone]
    · rw [AreApart, pairwise_cacheFiles_iff hnone, cacheFiles_ne_baseFiles_iff hnone,
        or_iff_right hnone]
      exact ⟨fun ⟨⟨hdirs, hnames⟩, hbase⟩ => ⟨⟨hnames, hbase⟩, hdirs⟩,
        fun ⟨⟨hnames, hbase⟩, hdirs⟩ => ⟨⟨hdirs, hnames⟩, hbase⟩⟩
  · have hsaved := (savedFiles_update h s).sublist
    exact ⟨hapart.1.sublist hsaved, fun p hp => hapart.2 p (hsaved.subset hp)⟩

/-- Two build directories and a complementer for headers. -/
def sample : LayeredDatabase where
  backends := Backends.builtin
  complementers := [⟨"headerdb", Complementer.headers, by decide⟩]
  layers := [[.null, .null], [.memory [], .memory []]]
  directories := [⟨"/w/debug"⟩, ⟨"/w/release"⟩]
  strict := true

theorem cacheFiles_apart_of_sample :
    sample.AreApart sample.cacheFiles ∧
    sample.AreApart (savedFiles (sample.update ⟨.empty, some [], none, none, none⟩).notes) :=
  have hapart := (cacheFiles_apart_iff sample).1.2 ⟨.inr (by decide), .inr (by decide)⟩
  ⟨hapart, (cacheFiles_apart_iff sample).2 hapart _⟩

/-! ## A base database that is a cache file -/

namespace Collision

/-- A build directory with a base database and nothing else. -/
def host : Host where
  tree :=
    { entries := [(["w"], .directory), (["w", "b"], .directory),
        (["w", "b", "compile_commands.json"], .file ByteArray.empty)]
      distinct := by decide
      proper := by decide
      closed := by decide }
  directory := some []
  home := none
  configHome := none
  logicalDirectory := none

/-- The complementer that is called like the base databases. -/
def complementer : NamedComplementer := ⟨"compile_commands", Complementer.headers, by decide⟩

theorem locate_base :
    host.locate ⟨"/w/b/compile_commands.json"⟩ =
      .ok (["w", "b", "compile_commands.json"], .file ByteArray.empty) := by
  have hpath : (Place.absolute ["w", "b", "compile_commands.json"]).toPath =
      ⟨"/w/b/compile_commands.json"⟩ := by decide
  rw [← hpath]
  exact Host.locate_toPath (by simp [host])

/-- The database after the complementer has been added. -/
def named : LayeredDatabase :=
  (Call.addComplementer "compile_commands" Complementer.headers).run host (new Backends.builtin)

/-- The database after the directory has been added, too. -/
def state : LayeredDatabase := (Call.addDirectory ⟨"/w/b"⟩).run host named

/-- A strict database finds the base database in place of the cache. -/
theorem registered_state :
    state.complementers = [complementer] ∧ state.directories = [⟨"/w/b"⟩] := by
  have hnamed : named = { new Backends.builtin with
      complementers := [complementer]
      layers := [[], []] } := rfl
  have hexists : host.pathExists ((⟨"/w/b"⟩ : Path).join ⟨"compile_commands.json"⟩) = true := by
    rw [show (⟨"/w/b"⟩ : Path).join ⟨"compile_commands.json"⟩ =
      ⟨"/w/b/compile_commands.json"⟩ by decide, Host.pathExists, locate_base]
    rfl
  have hfile : host.isFile (complementer.cacheFile ⟨"/w/b"⟩) = true := by
    rw [show complementer.cacheFile ⟨"/w/b"⟩ = ⟨"/w/b/compile_commands.json"⟩ by decide,
      Host.isFile, locate_base]
  have hprobe : (named.backends.probe host ⟨"/w/b"⟩).value =
      .ok (.json ((⟨"/w/b"⟩ : Path).join ⟨"compile_commands.json"⟩) none) := by
    simp [hnamed, new, Backends.builtin, Backends.register, Backends.probe, Backends.recognized?,
      Backend.json, Database.ofDirectory?, hexists]
  have hcached : cached host named.strict ⟨"/w/b"⟩ named.complementers =
      .ok [.json (complementer.cacheFile ⟨"/w/b"⟩) none] := by
    simp [hnamed, new, cached, hfile, Except.map]
  rw [state, run_addDirectory_of_found hprobe hcached, hnamed]
  exact ⟨rfl, rfl⟩

end Collision

/-- **A cache file can be a base database**: nothing keeps a complementer
from being called like one. -/
theorem cacheFiles_shared :
    Reachable Collision.state ∧ ¬ Collision.state.AreApart Collision.state.cacheFiles := by
  refine ⟨.call _ _ (.call _ _ (.new _)), fun hapart => ?_⟩
  obtain ⟨hcomplementers, hdirectories⟩ := Collision.registered_state
  have hnames := (cacheFiles_ne_baseFiles_iff (by simp [hdirectories])).1 hapart.2
  rw [hcomplementers] at hnames
  exact hnames (by decide)

end LayeredDatabase

end CompileCommands
