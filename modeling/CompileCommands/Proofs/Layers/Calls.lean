import CompileCommands.Proofs.Layers.Reachable
import CompileCommands.Proofs.Layers.Reading
/-!
# What calls do

A call on a layered database does one of five things
(`Call.run_cases`): it adds a complementer, makes the database strict or
not, pushes build directories whose databases have been found, reads
some of the layers, or updates them. An invariant is a short case
analysis from here on.
-/

namespace CompileCommands

/-- What went on from a value came from one. -/
theorem Noted.onOk_eq_ok {ν ε α β : Type} {x : Noted ν (Except ε α)}
    {f : α → Noted ν (Except ε β)} {b : β} :
    (x.onOk f).value = .ok b ↔ ∃ a, x.value = .ok a ∧ (f a).value = .ok b := by
  unfold onOk
  rw [value_andThen]
  cases x.value with
  | error e => simp
  | ok a => simp

namespace LayeredDatabase

variable {h : Host} {s s' : LayeredDatabase} {d : Path} {p : ProbedDirectory}
variable {ds : List Path} {ps : List ProbedDirectory}

/-! ## Databases found for a directory -/

/-- Whether the databases are those found for the directory: the base by a
backend, and the others in the cache files. -/
def IsProbed (h : Host) (s : LayeredDatabase) (p : ProbedDirectory) : Prop :=
  ∃ b base cs, s.backends.recognized? h p.directory = some (b, base) ∧
    cached h s.strict p.directory s.complementers = .ok cs ∧ p.databases = base :: cs

theorem probe_backends_eq_ok {bs : Backends} {base : Database} :
    (bs.probe h d).value = .ok base ↔ ∃ b, bs.recognized? h d = some (b, base) := by
  unfold Backends.probe
  cases bs.recognized? h d with
  | none => simp
  | some found => obtain ⟨b, base'⟩ := found; simp

theorem probe_eq_ok : (s.probe h d).value = .ok p ↔ IsProbed h s p ∧ p.directory = d := by
  rw [probe, Noted.onOk_eq_ok]
  simp only [probe_backends_eq_ok, Noted.value_silent]
  constructor
  · rintro ⟨base, ⟨b, hb⟩, hp⟩
    cases hcached : cached h s.strict d s.complementers with
    | error e => rw [hcached] at hp; cases hp
    | ok cs =>
      rw [hcached] at hp
      cases hp
      exact ⟨⟨b, base, cs, hb, hcached, rfl⟩, rfl⟩
  · rintro ⟨⟨b, base, cs, hb, hcached, hdatabases⟩, rfl⟩
    refine ⟨base, ⟨b, hb⟩, ?_⟩
    rw [hcached]
    obtain ⟨directory, databases⟩ := p
    obtain rfl : databases = base :: cs := hdatabases
    rfl

theorem probeEach_eq_ok : (s.probeEach h ds).value = .ok ps ↔
    (∀ p ∈ ps, IsProbed h s p) ∧ ps.map ProbedDirectory.directory = ds := by
  induction ds generalizing ps with
  | nil =>
    rw [probeEach, Noted.value_silent, List.map_eq_nil_iff]
    constructor
    · rintro hps
      cases hps
      exact ⟨fun p hp => absurd hp List.not_mem_nil, rfl⟩
    · rintro ⟨-, rfl⟩
      rfl
  | cons d ds ih =>
    simp only [probeEach, Noted.onOk_eq_ok, Noted.value_silent, probe_eq_ok, ih]
    constructor
    · rintro ⟨p, ⟨hp, rfl⟩, qs, ⟨hqs, rfl⟩, hps⟩
      cases hps
      exact ⟨List.forall_mem_cons.2 ⟨hp, hqs⟩, rfl⟩
    · rintro ⟨hall, hdirectories⟩
      obtain ⟨p, qs, rfl, rfl, hqs⟩ := List.map_eq_cons_iff.1 hdirectories
      obtain ⟨hp, hall⟩ := List.forall_mem_cons.1 hall
      exact ⟨p, ⟨hp, rfl⟩, qs, ⟨hall, hqs⟩, rfl⟩

theorem isProbed_of_probeFound {pattern : String}
    (hps : (s.probeFound h pattern ds).value = .ok ps) : ∀ p ∈ ps, IsProbed h s p := by
  induction ds generalizing ps with
  | nil => cases hps; exact fun p hp => absurd hp List.not_mem_nil
  | cons d ds ih =>
    rw [probeFound, Noted.value_andThen] at hps
    cases hprobe : (s.probe h d).value with
    | ok p =>
      simp only [hprobe, Noted.onOk_eq_ok, Noted.value_silent] at hps
      obtain ⟨qs, hqs, hps⟩ := hps
      cases hps
      exact List.forall_mem_cons.2 ⟨(probe_eq_ok.1 hprobe).1, ih hqs⟩
    | error e =>
      rw [hprobe] at hps
      -- only a directory without a database is passed over
      cases e with
      | noDatabase x => exact ih hps
      | _ => cases hps

theorem isProbed_of_probePattern {pattern : String}
    (hps : (s.probePattern h pattern).value = .ok ps) : ∀ p ∈ ps, IsProbed h s p := by
  unfold probePattern at hps
  cases hexpand : DirectoryPattern.expand h pattern with
  | error e => rw [hexpand] at hps; cases hps
  | ok ds =>
    simp only [hexpand, Noted.onOk_eq_ok, Noted.value_silent] at hps
    obtain ⟨qs, hqs, hps⟩ := hps
    split at hps
    · cases hps
    · cases hps
      exact isProbed_of_probeFound hqs

/-- A pattern for one directory finds what that one holds. -/
theorem probePattern_of_expand {pattern : String}
    (hexpand : DirectoryPattern.expand h pattern = .ok [d]) (hprobe : (s.probe h d).value = .ok p) :
    (s.probePattern h pattern).value = .ok [p] := by
  have hfound : (s.probeFound h pattern [d]).value = .ok [p] := by
    rw [probeFound, Noted.value_andThen, hprobe]
    rfl
  rw [probePattern, hexpand]
  exact Noted.onOk_eq_ok.2 ⟨[p], hfound, rfl⟩

theorem isProbed_of_probePatterns {patterns : List String}
    (hps : (s.probePatterns h patterns).value = .ok ps) : ∀ p ∈ ps, IsProbed h s p := by
  induction patterns generalizing ps with
  | nil => cases hps; exact fun p hp => absurd hp List.not_mem_nil
  | cons pattern patterns ih =>
    simp only [probePatterns, Noted.onOk_eq_ok, Noted.value_silent] at hps
    obtain ⟨qs, hqs, rs, hrs, hps⟩ := hps
    cases hps
    exact List.forall_mem_append.2 ⟨isProbed_of_probePattern hqs, ih hrs⟩

/-- As many databases are found for a directory as there are layers. -/
theorem length_cached {strict : Bool} {cs : List NamedComplementer} {found : List Database}
    (hfound : cached h strict d cs = .ok found) : found.length = cs.length := by
  induction cs generalizing found with
  | nil => cases hfound; rfl
  | cons c cs ih =>
    have hcons : ∀ x, (cached h strict d cs).map (x :: ·) = .ok found →
        found.length = cs.length + 1 := by
      intro x hx
      cases hrest : cached h strict d cs with
      | error e => rw [hrest] at hx; cases hx
      | ok rest =>
        rw [hrest] at hx
        cases hx
        rw [List.length_cons, ih hrest]
    rw [cached] at hfound
    split at hfound
    · exact hcons _ hfound
    · split at hfound
      · cases hfound
      · exact hcons _ hfound

/-- **Cache files that are there are found**, strict or not. -/
theorem cached_of_isFile {strict : Bool} {cs : List NamedComplementer}
    (hfiles : ∀ c ∈ cs, h.isFile (c.cacheFile d) = true) :
    cached h strict d cs = .ok (cs.map fun c => .json (c.cacheFile d) none) := by
  induction cs with
  | nil => rfl
  | cons c cs ih =>
    obtain ⟨hfile, hfiles⟩ := List.forall_mem_cons.1 hfiles
    rw [cached, if_pos hfile, ih hfiles]
    rfl

/-- The backends that come with the library look for a base database. -/
theorem recognized?_builtin (h : Host) (d : Path) :
    Backends.builtin.recognized? h d =
      (Database.ofDirectory? h d).map fun base => (Backend.json, base) := by
  have hbuiltin : Backends.builtin = [Backend.json] := rfl
  have hjson : Backend.json.recognize h d = Database.ofDirectory? h d := rfl
  rw [hbuiltin, Backends.recognized?, hjson]
  cases Database.ofDirectory? h d <;> rfl

theorem IsProbed.length_databases (hp : IsProbed h s p) :
    p.databases.length = s.complementers.length + 1 := by
  obtain ⟨b, base, cs, -, hcached, hdatabases⟩ := hp
  rw [hdatabases, List.length_cons, length_cached hcached]

/-! ## Pushing directories -/

theorem length_pushEach (ls : List Layer) (ds : List Database) :
    (pushEach ls ds).length = ls.length := by
  induction ls generalizing ds with
  | nil => rfl
  | cons l ls ih =>
    cases ds with
    | nil => rfl
    | cons d ds => rw [pushEach, List.length_cons, List.length_cons, ih]

/-- With a database for every layer, every layer gets one. -/
theorem exists_of_mem_pushEach {ls : List Layer} {ds : List Database}
    (hlength : ds.length = ls.length)
    {l : Layer} (hl : l ∈ pushEach ls ds) : ∃ m ∈ ls, ∃ d ∈ ds, l = m ++ [d] := by
  induction ls generalizing ds with
  | nil => exact absurd hl List.not_mem_nil
  | cons m ls ih =>
    cases ds with
    | nil => cases hlength
    | cons d ds =>
      rw [pushEach] at hl
      rcases List.mem_cons.1 hl with rfl | hl
      · exact ⟨m, List.mem_cons_self .., d, List.mem_cons_self .., rfl⟩
      · obtain ⟨m', hm', d', hd', rfl⟩ := ih (Nat.succ.inj hlength) hl
        exact ⟨m', List.mem_cons_of_mem _ hm', d', List.mem_cons_of_mem _ hd', rfl⟩

theorem pushEach_map {fs : List (Path → Database)} {ls : List Layer}
    (hlength : ls.length = fs.length) (d : Path) :
    pushEach ls (fs.map (· d)) = List.zipWith (fun l f => l ++ [f d]) ls fs := by
  induction ls generalizing fs with
  | nil => cases fs <;> rfl
  | cons l ls ih =>
    cases fs with
    | nil => cases hlength
    | cons f fs => rw [List.map_cons, pushEach, ih (Nat.succ.inj hlength), List.zipWith_cons_cons]

/-- **Directories that are pushed with one database for each of some
functions** add to each layer what its function gives for them. -/
theorem foldl_push_map (fs : List (Path → Database)) (ds : List Path) (t : LayeredDatabase)
    (hlength : t.layers.length = fs.length) :
    (ds.map fun d => (⟨d, fs.map (· d)⟩ : ProbedDirectory)).foldl push t =
      { t with
        layers := List.zipWith (fun l f => l ++ ds.map f) t.layers fs
        directories := t.directories ++ ds } := by
  induction ds generalizing t with
  | nil =>
    have hsame : List.zipWith (fun (l : Layer) (f : Path → Database) => l ++ [].map f)
        t.layers fs = t.layers := by
      refine List.ext_getElem (by simp [hlength]) fun i hi hi' => ?_
      rw [List.getElem_zipWith, List.map_nil, List.append_nil]
    rw [List.map_nil, List.foldl_nil, List.append_nil, hsame]
  | cons d ds ih =>
    have hpushed : (t.push ⟨d, fs.map (· d)⟩).layers =
        List.zipWith (fun l f => l ++ [f d]) t.layers fs := pushEach_map hlength d
    rw [List.map_cons, List.foldl_cons, ih _ ((length_pushEach _ _).trans hlength), hpushed]
    have hboth : List.zipWith (fun (l : Layer) (f : Path → Database) => l ++ ds.map f)
        (List.zipWith (fun l f => l ++ [f d]) t.layers fs) fs =
          List.zipWith (fun l f => l ++ (d :: ds).map f) t.layers fs := by
      refine List.ext_getElem (by simp [hlength]) fun i hi hi' => ?_
      simp only [List.getElem_zipWith, List.append_assoc, List.singleton_append, List.map_cons]
    rw [hboth]
    simp only [push, List.append_assoc, List.singleton_append]

theorem push_backends (s : LayeredDatabase) (p : ProbedDirectory) :
    (s.push p).backends = s.backends := rfl

/-- **Pushing directories one by one** carries along what one push
does. -/
theorem push_induction {P : LayeredDatabase → Prop} (hs : P s)
    (hpush : ∀ s p, P s → IsProbed h s p → P (s.push p)) (hps : ∀ p ∈ ps, IsProbed h s p) :
    P (ps.foldl push s) := by
  induction ps generalizing s with
  | nil => exact hs
  | cons p ps ih =>
    obtain ⟨hp, hps⟩ := List.forall_mem_cons.1 hps
    exact ih (hpush s p hs hp) hps

theorem commit_eq_ok {found : Logged (Except DbError (List ProbedDirectory))} :
    (s.commit found).value = .ok s' ↔ ∃ ps, found.value = .ok ps ∧ ps.foldl push s = s' := by
  simp only [commit, Noted.onOk_eq_ok, Noted.value_silent, Except.ok.injEq]

theorem addComplementer_eq_ok {name : String} {c : Complementer} :
    s.addComplementer name c = .ok s' ↔ ∃ valid : isComplementerName name = true,
      s' = { s with
        complementers := s.complementers ++ [⟨name, c, valid⟩]
        layers := s.layers ++ [s.directories.map fun _ => .memory []] } := by
  unfold addComplementer NamedComplementer.of
  split
  · rename_i hvalid
    constructor
    · intro hs
      cases hs
      exact ⟨hvalid, rfl⟩
    · rintro ⟨-, rfl⟩
      rfl
  · rename_i hvalid
    constructor
    · intro hs
      cases hs
    · rintro ⟨hvalid', -⟩
      exact absurd hvalid' hvalid

/-! ## Calls -/

theorem changed_commit_cases (s : LayeredDatabase)
    {found : Logged (Except DbError (List ProbedDirectory))}
    (hfound : ∀ ps, found.value = .ok ps → ∀ p ∈ ps, IsProbed h s p) :
    ∃ ps : List ProbedDirectory, (∀ p ∈ ps, IsProbed h s p) ∧
      s.changed (s.commit found).value = ps.foldl push s := by
  cases hcommit : (s.commit found).value with
  | error e => exact ⟨[], fun p hp => absurd hp List.not_mem_nil, rfl⟩
  | ok s' =>
    obtain ⟨ps, hps, rfl⟩ := commit_eq_ok.1 hcommit
    exact ⟨ps, hfound ps hps, rfl⟩

/-- **What a call does.** A call that fails pushes no directories. -/
theorem Call.run_cases (h : Host) (s : LayeredDatabase) (c : Call) :
    (∃ n, c.run h s = { s with
      complementers := s.complementers ++ [n]
      layers := s.layers ++ [s.directories.map fun _ => .memory []] }) ∨
    (∃ strict, c.run h s = { s with strict := strict }) ∨
    (∃ ps : List ProbedDirectory, (∀ p ∈ ps, IsProbed h s p) ∧ c.run h s = ps.foldl push s) ∨
    (∃ ls, Alike h ls s.layers ∧ c.run h s = { s with layers := ls }) ∨
    c = .update := by
  cases c with
  | addComplementer name c =>
    cases hadd : s.addComplementer name c with
    | error e =>
      refine .inr (.inl ⟨s.strict, ?_⟩)
      rw [run, hadd]
      rfl
    | ok s' =>
      obtain ⟨valid, rfl⟩ := addComplementer_eq_ok.1 hadd
      refine .inl ⟨⟨name, c, valid⟩, ?_⟩
      rw [run, hadd]
      rfl
  | setStrict strict => exact .inr (.inl ⟨strict, rfl⟩)
  | addDirectory d =>
    refine .inr (.inr (.inl (changed_commit_cases s fun ps hps => ?_)))
    obtain ⟨p, hp, hps⟩ := Noted.onOk_eq_ok.1 hps
    cases hps
    exact List.forall_mem_singleton.2 (probe_eq_ok.1 hp).1
  | addDirectories ds =>
    exact .inr (.inr (.inl (changed_commit_cases s fun ps hps => (probeEach_eq_ok.1 hps).1)))
  | addPattern pattern =>
    exact .inr (.inr (.inl (changed_commit_cases s fun ps hps => isProbed_of_probePattern hps)))
  | addPatterns patterns =>
    exact .inr (.inr (.inl (changed_commit_cases s fun ps hps => isProbed_of_probePatterns hps)))
  | update => exact .inr (.inr (.inr (.inr rfl)))
  | listAll => exact .inr (.inr (.inr (.inl ⟨_, alike_readLayers h s.layers, rfl⟩)))
  | lookUp p => exact .inr (.inr (.inr (.inl ⟨_, alike_readLayersFor h p s.layers, rfl⟩)))
  | lookAt chosen => exact .inr (.inr (.inr (.inl ⟨_, alike_readAt h chosen s.layers, rfl⟩)))

end LayeredDatabase

end CompileCommands
