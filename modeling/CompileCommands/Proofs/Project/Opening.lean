import CompileCommands.Project.Basic
import CompileCommands.Proofs.Layers.FirstLayer
/-!
# Projects that have been opened and updated

The database of a configuration is one that calls lead to, and all its
complementers are the one for headers, whatever directories the patterns
name and however often either is repeated. An update of it needs readable
base databases and cache files that are there (`update_succeeds`), and
once it has been updated, a lookup, which stops at the first layer that
knows the file, gives all there is (`find_after_update`).
-/

namespace CompileCommands

namespace Project

open LayeredDatabase

variable {h : Host} {config : Config} {strict : Bool} {s s' : LayeredDatabase}

/-- Every complementer that has a name is the one for headers. -/
theorem complementer?_eq_some {name : String} {c : Complementer}
    (hc : complementer? name = some c) : c = .headers := by
  unfold complementer? at hc
  split at hc
  · exact (Option.some.inj hc).symm
  · cases hc

/-- **Adding complementers one by one** carries along what adding one for
headers does. -/
theorem addComplementers_induction {P : LayeredDatabase → Prop} {names : List String} (hs : P s)
    (hadd : ∀ s s' name, P s → s.addComplementer name .headers = .ok s' → P s')
    (hnames : addComplementers names s = .ok s') : P s' := by
  induction names generalizing s with
  | nil =>
    cases hnames
    exact hs
  | cons name names ih =>
    rw [addComplementers] at hnames
    cases hc : complementer? name with
    | none => rw [hc] at hnames; cases hnames
    | some c =>
      obtain rfl := complementer?_eq_some hc
      cases ht : s.addComplementer name .headers with
      | error e => simp only [hc, ht] at hnames; cases hnames
      | ok t =>
        simp only [hc, ht] at hnames
        exact ih (hadd s t name hs ht) hnames

/-- The layers of a configuration are opened in two steps. -/
theorem openLayers_eq_ok : (openLayers h config strict).value = .ok s ↔
    ∃ t, addComplementers config.complementers
        { LayeredDatabase.new Backends.builtin with strict := strict } = .ok t ∧
      (t.addPatterns h config.buildDirectories).value = .ok s := by
  unfold openLayers
  cases hadd : addComplementers config.complementers
      { LayeredDatabase.new Backends.builtin with strict := strict } with
  | error e => simp [hadd]
  | ok t =>
    cases hpatterns : (t.addPatterns h config.buildDirectories).value <;> simp [hadd, hpatterns]

/-- **Opening a configuration** adds the complementers for headers, and
then the directories of its patterns. -/
theorem ofConfig_induction {P : LayeredDatabase → Prop}
    (hnew : P { LayeredDatabase.new Backends.builtin with strict := strict })
    (hadd : ∀ s s' name, P s → s.addComplementer name .headers = .ok s' → P s')
    (hpatterns : ∀ s s', P s → (s.addPatterns h config.buildDirectories).value = .ok s' → P s')
    (hopen : (ofConfig h config strict).value = .ok (.layered s)) : P s := by
  unfold ofConfig at hopen
  split at hopen
  · cases hopen
  obtain ⟨_, hlayers, hs⟩ := Noted.onOk_eq_ok.1 hopen
  cases hs
  obtain ⟨t, hnames, hdirectories⟩ := openLayers_eq_ok.1 hlayers
  exact hpatterns t _ (addComplementers_induction hnew hadd hnames) hdirectories

theorem run_addComplementer_of_ok {name : String} {c : Complementer}
    (hadd : s.addComplementer name c = .ok s') : (Call.addComplementer name c).run h s = s' := by
  rw [Call.run, hadd]
  rfl

theorem run_addPatterns_of_ok {patterns : List String}
    (hadd : (s.addPatterns h patterns).value = .ok s') :
    (Call.addPatterns patterns).run h s = s' := by
  rw [Call.run, hadd]
  rfl

/-- **The database of a configuration** is reachable, and its complementers
are those for headers. -/
theorem reachable_of_ofConfig (hopen : (ofConfig h config strict).value = .ok (.layered s)) :
    Reachable s ∧ ∀ n ∈ s.complementers, n.complementer = .headers := by
  refine ofConfig_induction
    (P := fun s => Reachable s ∧ ∀ n ∈ s.complementers, n.complementer = .headers) ?_ ?_ ?_ hopen
  · exact ⟨.call h (.setStrict strict) (.new Backends.builtin),
      fun n hn => absurd hn List.not_mem_nil⟩
  · rintro s s' name ⟨hs, hheaders⟩ hadd
    refine ⟨run_addComplementer_of_ok (h := h) hadd ▸ .call h _ hs, ?_⟩
    obtain ⟨valid, rfl⟩ := addComplementer_eq_ok.1 hadd
    exact List.forall_mem_append.2 ⟨hheaders, List.forall_mem_singleton.2 rfl⟩
  · rintro s s' ⟨hs, hheaders⟩ hpatterns
    refine ⟨run_addPatterns_of_ok hpatterns ▸ .call h _ hs, ?_⟩
    obtain ⟨ps, hps, rfl⟩ := commit_eq_ok.1 hpatterns
    exact push_induction (P := fun t => ∀ n ∈ t.complementers, n.complementer = .headers)
      hheaders (fun _ _ ht _ => ht) (isProbed_of_probePatterns hps)

/-- **An update succeeds** if the base databases can be read and the cache
files are there, and everything can be listed then. -/
theorem update_succeeds (hopen : (ofConfig h config strict).value = .ok (.layered s))
    (hbase : CanBeRead h (s.layers.take 1))
    (hfiles : ∀ c ∈ s.complementers, ∀ d ∈ s.directories,
      ∃ held, h.read (c.cacheFile d) = .ok held) :
    (s.update h).result.2 = none ∧
      ∃ cs, (layered (s.update h).result.1).commands (s.update h).host false = .ok cs := by
  obtain ⟨hreachable, hheaders⟩ := reachable_of_ofConfig hopen
  have hne : s.layers.take 1 ≠ [] :=
    List.ne_nil_of_length_pos (hreachable.isAligned.length_take.symm ▸ Nat.one_pos)
  obtain ⟨ls, failure, hr, hresult⟩ := update_cases h s
  obtain ⟨rfl, hread⟩ := hr.canBeRead hheaders hfiles hne
    (fun l hl => hreachable.isAligned.databases l (List.mem_of_mem_take hl)) hbase
  obtain ⟨-, hresult⟩ | ⟨e, he, -⟩ := hresult
  · rw [hresult]
    obtain ⟨cs, hcs⟩ := hread.exists_commandsAll
    exact ⟨rfl, cs, (commands_eq_commandsAll _ _).trans hcs⟩
  · cases he

/-- **A lookup after an update loses nothing.** All commands for an
absolute path are in the first layer that has one, so the lookup gives the
commands for the path among all commands, in their order. -/
theorem find_after_update (hopen : (ofConfig h config strict).value = .ok (.layered s))
    (hok : (s.update h).result.2 = none) {p : Path} (hp : p.isAbsolute = true)
    {cs : List CompileCommand}
    (hcs : (layered (s.update h).result.1).commands (s.update h).host false = .ok cs) :
    (layered (s.update h).result.1).find (s.update h).host false p =
      .ok (cs.filter fun c => c.normalizedFile == p.normalize) := by
  obtain ⟨hreachable, hheaders⟩ := reachable_of_ofConfig hopen
  obtain ⟨ls, failure, hr, ⟨rfl, hresult⟩ | ⟨e, -, hresult⟩⟩ := update_cases h s
  · rw [hresult] at hcs ⊢
    have hbase : Separate h (s.layers.take 1) := by
      obtain ⟨l, hl⟩ := List.length_eq_one_iff.1 hreachable.isAligned.length_take
      rw [hl]
      exact List.pairwise_singleton _ _
    have hall : Database.commandsAll (s.update h).host ls.flatten = .ok cs :=
      (commands_eq_commandsAll _ _).symm.trans hcs
    change ({ s with layers := ls } : LayeredDatabase).find _ false p = _
    rw [LayeredDatabase.find, findIn_eq_matching (hr.separate hheaders hbase) hp hall]
    rfl
  · rw [hresult] at hok
    cases hok

/-! ## A directory named twice -/

namespace Sample

/-- A build directory with a source that includes a header. -/
def tree (base : ByteArray) : FileTree where
  entries := [(["b"], .directory), (["b", "compile_commands.json"], .file base),
    (["b", "headerdb.json"], .file (CommandFile.render []).toUTF8),
    (["b", "a.c"], .file "#include \"a.h\"".toUTF8), (["b", "a.h"], .file "".toUTF8)]
  distinct := by simp
  proper := by simp; decide
  closed := by simp

def command : CompileCommand := ⟨⟨"/b"⟩, ⟨"a.c"⟩, ["cc", "-c", "a.c"], none⟩

def host : Host := ⟨tree (CommandFile.render [command]).toUTF8, some [], none, none, none⟩

/-- Both the directory and the complementer are named twice, so there are
two layers of two databases each in one cache file. -/
def doubled : Config := ⟨["/b", "/b"], ["headerdb", "headerdb"], []⟩

theorem isComplementerName_headerdb : isComplementerName "headerdb" = true := by decide

def headerdb : NamedComplementer := ⟨"headerdb", .headers, isComplementerName_headerdb⟩

def found : ProbedDirectory :=
  ⟨⟨"/b"⟩, [.json ⟨"/b/compile_commands.json"⟩ none, .json (headerdb.cacheFile ⟨"/b"⟩) none,
    .json (headerdb.cacheFile ⟨"/b"⟩) none]⟩

/-- The database without its directories. -/
def start : LayeredDatabase :=
  { LayeredDatabase.new Backends.builtin with
    strict := false
    complementers := [headerdb, headerdb]
    layers := [[], [], []] }

def opened : LayeredDatabase := (start.push found).push found

theorem read_base : host.read ⟨"/b/compile_commands.json"⟩ =
    .ok (CommandFile.render [command]).toUTF8 :=
  Host.read_toPath (l := ["b", "compile_commands.json"]) (by simp [host, tree])

theorem read_cacheFile : host.read (headerdb.cacheFile ⟨"/b"⟩) =
    .ok (CommandFile.render []).toUTF8 := by
  rw [show headerdb.cacheFile ⟨"/b"⟩ = (Place.absolute ["b", "headerdb.json"]).toPath by decide]
  exact Host.read_toPath (by simp [host, tree])

theorem locate_directory : host.locate ⟨"/b"⟩ = .ok (["b"], .directory) := by
  have hspot : host.spot ⟨"/b"⟩ = .ok (.taken ["b"] .directory) := by
    refine Host.spot_eq_ok_iff.2 ⟨by decide, by decide, [], rfl, ?_⟩
    rw [show Text.fields (· == '/') (⟨"/b"⟩ : Path).chars = [[], ['b']] by decide,
      FileTree.follow_idle rfl, FileTree.follow_directory (n := "b") (by decide) rfl,
      FileTree.follow_nil]
    rfl
  rw [Host.locate, hspot]

theorem isDirectory_directory : host.isDirectory ⟨"/b"⟩ = true := by
  rw [Host.isDirectory, locate_directory]

theorem expand_directory : DirectoryPattern.expand host "/b" = .ok [⟨"/b"⟩] := by
  have htrimmed : DirectoryPattern.trimmed "/b" = ['/', 'b'] := by decide
  rw [DirectoryPattern.expand, htrimmed]
  exact congrArg Except.ok (if_pos isDirectory_directory)

theorem ofDirectory?_base : Database.ofDirectory? host ⟨"/b"⟩ =
    some (.json ⟨"/b/compile_commands.json"⟩ none) := by
  have hfile : (⟨"/b"⟩ : Path).join ⟨"compile_commands.json"⟩ = ⟨"/b/compile_commands.json"⟩ := by
    decide
  rw [Database.ofDirectory?, hfile]
  exact if_pos (Host.pathExists_of_read read_base)

theorem isProbed_found : IsProbed host start found := by
  refine ⟨.json, .json ⟨"/b/compile_commands.json"⟩ none, _,
    (recognized?_builtin host ⟨"/b"⟩).trans (congrArg _ ofDirectory?_base),
    cached_of_isFile ?_, rfl⟩
  have hfile := Host.isFile_of_read read_cacheFile
  exact List.forall_mem_cons.2 ⟨hfile, List.forall_mem_singleton.2 hfile⟩

/-- The sample is what the configuration describes. -/
theorem ofConfig_eq : (ofConfig host doubled false).value = .ok (.layered opened) := by
  have hpattern : (start.probePattern host "/b").value = .ok [found] :=
    probePattern_of_expand expand_directory (probe_eq_ok.2 ⟨isProbed_found, rfl⟩)
  have hpatterns : (start.probePatterns host ["/b", "/b"]).value = .ok [found, found] :=
    Noted.onOk_eq_ok.2 ⟨[found], hpattern, Noted.onOk_eq_ok.2 ⟨[found],
      Noted.onOk_eq_ok.2 ⟨[found], hpattern, Noted.onOk_eq_ok.2 ⟨[], rfl, rfl⟩⟩, rfl⟩⟩
  have hlayers : (openLayers host doubled false).value = .ok opened :=
    openLayers_eq_ok.2 ⟨start, rfl, commit_eq_ok.2 ⟨[found, found], hpatterns, rfl⟩⟩
  rw [ofConfig, if_neg (by decide)]
  exact Noted.onOk_eq_ok.2 ⟨opened, hlayers, rfl⟩

end Sample

/-- The source can be looked up after an update, although all cache files
are one file. -/
theorem find_after_update_of_doubled :
    (ofConfig Sample.host Sample.doubled false).value = .ok (.layered Sample.opened) ∧
    (Sample.opened.update Sample.host).result.2 = none ∧
    ∃ cs, (layered (Sample.opened.update Sample.host).result.1).commands
        (Sample.opened.update Sample.host).host false = .ok cs ∧
      (layered (Sample.opened.update Sample.host).result.1).find
        (Sample.opened.update Sample.host).host false ⟨"/b/a.c"⟩ =
          .ok (cs.filter fun c => c.normalizedFile == (⟨"/b/a.c"⟩ : Path).normalize) := by
  have hbase : CanBeRead Sample.host (Sample.opened.layers.take 1) := by
    intro l hl d hd
    obtain rfl := List.mem_singleton.1 hl
    obtain rfl : d = .json ⟨"/b/compile_commands.json"⟩ none := by simpa using hd
    exact ⟨[Sample.command], CommandFile.load_of_read Sample.read_base⟩
  have hfiles : ∀ d ∈ Sample.opened.directories,
      ∃ held, Sample.host.read (Sample.headerdb.cacheFile d) = .ok held :=
    List.forall_mem_cons.2 ⟨⟨_, Sample.read_cacheFile⟩,
      List.forall_mem_singleton.2 ⟨_, Sample.read_cacheFile⟩⟩
  obtain ⟨hok, cs, hcs⟩ := update_succeeds Sample.ofConfig_eq hbase
    (List.forall_mem_cons.2 ⟨hfiles, List.forall_mem_singleton.2 hfiles⟩)
  exact ⟨Sample.ofConfig_eq, hok, cs, hcs,
    find_after_update Sample.ofConfig_eq hok (by decide) hcs⟩

end Project

end CompileCommands
