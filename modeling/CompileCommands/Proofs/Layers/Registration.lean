import CompileCommands.Proofs.DirectoryPattern.Expand
import CompileCommands.Proofs.Layers.Reopening
/-!
# Registering build directories together

Nothing that is found for a directory depends on the directories that
are registered already (`probePatterns_push`), so adding several of them
together is adding them one by one, down to the log lines
(`addPatterns_eq_inTurn`). What decides whether they can be added, and
what is added, is the same for a directory in either case
(`probe_eq_ok_iff`). Of the directories of a pattern those that no
backend recognizes do not count, unless none is left.
-/

namespace CompileCommands

/-! ## Going on from a value -/

theorem Noted.onOk_assoc {ν ε α β γ : Type} (x : Noted ν (Except ε α))
    (f : α → Noted ν (Except ε β)) (g : β → Noted ν (Except ε γ)) :
    (x.onOk f).onOk g = x.onOk fun a => (f a).onOk g := by
  obtain ⟨notes, value⟩ := x
  cases value with
  | error e => simp [onOk, andThen, silent]
  | ok a => simp [onOk, andThen]

theorem Noted.silent_onOk {ν ε α β : Type} (a : α) (f : α → Noted ν (Except ε β)) :
    (silent (.ok a) : Noted ν (Except ε α)).onOk f = f a := rfl

namespace LayeredDatabase

variable {h : Host} {s s' : LayeredDatabase} {d : Path} {p : ProbedDirectory} {pattern : String}
variable {ds : List Path} {ps : List ProbedDirectory} {patterns : List String}

/-! ## One by one -/

/-- The database to which things are added one by one, up to the first
that fails. -/
def inTurn {α : Type} (add : LayeredDatabase → α → Logged (Except DbError LayeredDatabase)) :
    LayeredDatabase → List α → Logged (Except DbError LayeredDatabase)
  | s, [] => .silent (.ok s)
  | s, x :: xs => (add s x).onOk fun t => inTurn add t xs

theorem probe_push (s : LayeredDatabase) (p : ProbedDirectory) :
    (s.push p).probe h d = s.probe h d := rfl

theorem probeEach_push (s : LayeredDatabase) (p : ProbedDirectory) :
    (s.push p).probeEach h ds = s.probeEach h ds := by
  induction ds with
  | nil => rfl
  | cons d ds ih => rw [probeEach, probeEach, ih, probe_push]

theorem probeFound_push (s : LayeredDatabase) (p : ProbedDirectory) :
    (s.push p).probeFound h pattern ds = s.probeFound h pattern ds := by
  induction ds with
  | nil => rfl
  | cons d ds ih => rw [probeFound, probeFound, ih, probe_push]

/-- **What is found does not depend on what is registered.** -/
theorem probePatterns_push (s : LayeredDatabase) (p : ProbedDirectory) :
    (s.push p).probePatterns h patterns = s.probePatterns h patterns := by
  have hpattern : ∀ pattern, (s.push p).probePattern h pattern = s.probePattern h pattern := by
    intro pattern
    simp only [probePattern, probeFound_push]
  induction patterns with
  | nil => rfl
  | cons pattern patterns ih => rw [probePatterns, probePatterns, ih, hpattern]

/-- **What has been found may be pushed before the search goes on.** -/
theorem commit_append (s : LayeredDatabase) (found : Logged (Except DbError (List ProbedDirectory)))
    (next : LayeredDatabase → Logged (Except DbError (List ProbedDirectory)))
    (hnext : ∀ t p, next (push t p) = next t) :
    s.commit (found.onOk fun ps => (next s).onOk fun qs => .silent (.ok (ps ++ qs))) =
      (s.commit found).onOk fun t => t.commit (next t) := by
  have hpushed : ∀ ps : List ProbedDirectory, next (ps.foldl push s) = next s := by
    intro ps
    induction ps generalizing s with
    | nil => rfl
    | cons p ps ih => rw [List.foldl_cons, ih, hnext]
  simp only [commit, Noted.onOk_assoc, Noted.silent_onOk, hpushed, List.foldl_append]

/-- **Patterns are added together as one by one.** -/
theorem addPatterns_eq_inTurn (s : LayeredDatabase) (patterns : List String) :
    s.addPatterns h patterns = inTurn (addPattern h) s patterns := by
  induction patterns generalizing s with
  | nil => rfl
  | cons pattern patterns ih =>
    have happend := commit_append s (s.probePattern h pattern)
      (fun t => t.probePatterns h patterns) fun t p => probePatterns_push t p
    rw [inTurn, addPatterns, probePatterns, happend]
    exact congrArg _ (funext ih)

/-- **Directories are added together as one by one.** -/
theorem addDirectories_eq_inTurn (s : LayeredDatabase) (ds : List Path) :
    s.addDirectories h ds = inTurn (addDirectory h) s ds := by
  induction ds generalizing s with
  | nil => rfl
  | cons d ds ih =>
    have happend := commit_append s ((s.probe h d).onOk fun p => .silent (.ok [p]))
      (fun t => t.probeEach h ds) fun t p => probeEach_push t p
    rw [Noted.onOk_assoc] at happend
    rw [inTurn, addDirectories, probeEach]
    exact happend.trans (congrArg _ (funext ih))

/-! ## What can be added -/

/-- The database in a cache file, which is empty if there is no such
file. -/
def cachedAt (h : Host) (c : NamedComplementer) (d : Path) : Database :=
  if h.isFile (c.cacheFile d) then .json (c.cacheFile d) none else .memory []

/-- Whether no cache file is missing in the directory, where that
matters. -/
def HasCaches (h : Host) (s : LayeredDatabase) (d : Path) : Prop :=
  s.strict = true → ∀ c ∈ s.complementers, h.isFile (c.cacheFile d) = true

/-- Whether a directory can be added. -/
structure AdmitsDirectory (h : Host) (s : LayeredDatabase) (d : Path) : Prop where
  recognized : (s.backends.recognized? h d).isSome = true
  cached : HasCaches h s d

/-- The databases of a directory: what the backends find, and the cache
files. -/
def databasesAt (h : Host) (s : LayeredDatabase) : List (Path → Database) :=
  baseAt h s.backends :: s.complementers.map (cachedAt h)

/-- What is found for a directory that can be added. -/
def foundAt (h : Host) (s : LayeredDatabase) (d : Path) : ProbedDirectory :=
  ⟨d, (databasesAt h s).map (· d)⟩

theorem cached_eq_ok {strict : Bool} {cs : List NamedComplementer} {found : List Database} :
    cached h strict d cs = .ok found ↔
      (strict = true → ∀ c ∈ cs, h.isFile (c.cacheFile d) = true) ∧
        found = cs.map (cachedAt h · d) := by
  have hmap : ∀ {rest : Except DbError (List Database)} {x : Database} {found : List Database},
      rest.map (x :: ·) = .ok found ↔ ∃ ds, rest = .ok ds ∧ found = x :: ds := by
    intro rest x found
    cases rest with
    | error e => simp [Except.map]
    | ok ds => simp [Except.map, eq_comm]
  induction cs generalizing found with
  | nil =>
    rw [cached, List.map_nil, Except.ok.injEq, eq_comm]
    exact (and_iff_right fun _ c hc => absurd hc List.not_mem_nil).symm
  | cons c cs ih =>
    rw [cached, List.map_cons, cachedAt]
    cases hfile : h.isFile (c.cacheFile d) with
    | true =>
      rw [if_pos rfl, if_pos rfl, hmap]
      simp only [ih, List.forall_mem_cons, hfile, true_and]
      constructor
      · rintro ⟨ds, ⟨hall, rfl⟩, rfl⟩
        exact ⟨hall, rfl⟩
      · rintro ⟨hall, rfl⟩
        exact ⟨_, ⟨hall, rfl⟩, rfl⟩
    | false =>
      rw [if_neg Bool.false_ne_true, if_neg Bool.false_ne_true]
      cases strict with
      | true => simp [hfile]
      | false =>
        rw [if_neg Bool.false_ne_true, hmap]
        simp only [ih, Bool.false_eq_true, false_implies, true_and]
        constructor
        · rintro ⟨ds, rfl, rfl⟩
          rfl
        · rintro rfl
          exact ⟨_, rfl, rfl⟩

/-- **A directory is found with its databases** exactly if it can be
added. -/
theorem probe_eq_ok_iff :
    (s.probe h d).value = .ok p ↔ AdmitsDirectory h s d ∧ p = foundAt h s d := by
  have hfound : foundAt h s d =
      ⟨d, baseAt h s.backends d :: s.complementers.map (cachedAt h · d)⟩ := by
    rw [foundAt, databasesAt, List.map_cons, List.map_map]
    rfl
  rw [probe_eq_ok, hfound]
  constructor
  · rintro ⟨⟨b, base, cs, hb, hcs, hdatabases⟩, rfl⟩
    obtain ⟨hcaches, rfl⟩ := cached_eq_ok.1 hcs
    have hbase : baseAt h s.backends p.directory = base := by rw [baseAt, hb]
    refine ⟨⟨?_, hcaches⟩, ?_⟩
    · rw [hb]
      rfl
    · rw [hbase, ← hdatabases]
  · rintro ⟨⟨hrecognized, hcaches⟩, rfl⟩
    obtain ⟨⟨b, base⟩, hb⟩ := Option.isSome_iff_exists.1 hrecognized
    refine ⟨⟨b, base, _, hb, cached_eq_ok.2 ⟨hcaches, rfl⟩, ?_⟩, rfl⟩
    rw [baseAt, hb]

/-- A directory is passed over exactly if no backend recognizes it. -/
theorem probe_eq_noDatabase {x : Path} :
    (s.probe h d).value = .error (.noDatabase x) ↔ s.backends.recognized? h d = none ∧ x = d := by
  have hmissing : ∀ {strict : Bool} {cs : List NamedComplementer},
      cached h strict d cs ≠ .error (.noDatabase x) := by
    intro strict cs
    induction cs with
    | nil => exact fun hcached => by cases hcached
    | cons c cs ih =>
      have hmap : ∀ y, (cached h strict d cs).map (y :: ·) ≠ .error (.noDatabase x) := by
        intro y hy
        cases hrest : cached h strict d cs with
        | error e =>
          rw [hrest] at hy ih
          cases hy
          exact ih rfl
        | ok ds =>
          rw [hrest] at hy
          cases hy
      rw [cached]
      split
      · exact hmap _
      · split
        · exact fun hcached => by cases hcached
        · exact hmap _
  rw [probe, Noted.onOk, Noted.value_andThen, Backends.probe]
  cases hb : s.backends.recognized? h d with
  | none => simp [eq_comm]
  | some found =>
    obtain ⟨b, base⟩ := found
    cases hcached : cached h s.strict d s.complementers with
    | error e =>
      have hne : e ≠ .noDatabase x := fun heq => hmissing (heq ▸ hcached)
      simp [Except.map, hne]
    | ok cs => simp [Except.map]

theorem probeEach_eq_ok_iff : (s.probeEach h ds).value = .ok ps ↔
    (∀ d ∈ ds, AdmitsDirectory h s d) ∧ ps = ds.map (foundAt h s) := by
  induction ds generalizing ps with
  | nil => simp [probeEach, eq_comm]
  | cons d ds ih =>
    simp only [probeEach, Noted.onOk_eq_ok, Noted.value_silent, probe_eq_ok_iff, ih,
      List.forall_mem_cons, List.map_cons]
    constructor
    · rintro ⟨p, ⟨hd, rfl⟩, qs, ⟨hds, rfl⟩, hps⟩
      cases hps
      exact ⟨⟨hd, hds⟩, rfl⟩
    · rintro ⟨⟨hd, hds⟩, rfl⟩
      exact ⟨_, ⟨hd, rfl⟩, _, ⟨hds, rfl⟩, rfl⟩

/-! ## Patterns -/

/-- The directories of a list that a backend recognizes. -/
def recognizedAmong (h : Host) (s : LayeredDatabase) (ds : List Path) : List Path :=
  ds.filter fun d => (s.backends.recognized? h d).isSome

/-- The directories of a pattern that a backend recognizes, in the order
of paths. -/
def recognizedBy (h : Host) (s : LayeredDatabase) (pattern : String) : List Path :=
  match DirectoryPattern.expand h pattern with
  | .ok ds => recognizedAmong h s ds
  | .error _ => []

/-- Whether a pattern can be added. -/
structure AdmitsPattern (h : Host) (s : LayeredDatabase) (pattern : String) : Prop where
  expands : ∃ ds, DirectoryPattern.expand h pattern = .ok ds
  recognized : recognizedBy h s pattern ≠ []
  cached : ∀ d ∈ recognizedBy h s pattern, HasCaches h s d

theorem probeFound_eq_ok_iff : (s.probeFound h pattern ds).value = .ok ps ↔
    (∀ d ∈ recognizedAmong h s ds, HasCaches h s d) ∧
      ps = (recognizedAmong h s ds).map (foundAt h s) := by
  induction ds generalizing ps with
  | nil => simp [probeFound, recognizedAmong, eq_comm]
  | cons d ds ih =>
    rw [probeFound, Noted.value_andThen]
    cases hb : s.backends.recognized? h d with
    | none =>
      have hskip : recognizedAmong h s (d :: ds) = recognizedAmong h s ds :=
        List.filter_cons_of_neg (by rw [hb]; exact Bool.false_ne_true)
      rw [(probe_eq_noDatabase (x := d)).2 ⟨hb, rfl⟩, hskip]
      exact ih
    | some found =>
      have hrecognized : (s.backends.recognized? h d).isSome = true := by rw [hb]; rfl
      have hkeep : recognizedAmong h s (d :: ds) = d :: recognizedAmong h s ds :=
        List.filter_cons_of_pos hrecognized
      rw [hkeep, List.forall_mem_cons, List.map_cons]
      cases hprobe : (s.probe h d).value with
      | ok p =>
        obtain ⟨hadmits, rfl⟩ := probe_eq_ok_iff.1 hprobe
        simp only [Noted.onOk_eq_ok, Noted.value_silent, ih]
        constructor
        · rintro ⟨qs, ⟨hall, rfl⟩, hps⟩
          cases hps
          exact ⟨⟨hadmits.cached, hall⟩, rfl⟩
        · rintro ⟨⟨-, hall⟩, rfl⟩
          exact ⟨_, ⟨hall, rfl⟩, rfl⟩
      | error e =>
        -- it is recognized, so a cache file is missing
        have hnone : ¬ HasCaches h s d := by
          intro hcaches
          rw [probe_eq_ok_iff.2 ⟨⟨hrecognized, hcaches⟩, rfl⟩] at hprobe
          cases hprobe
        have hskip : ∀ x, e ≠ .noDatabase x := by
          rintro x rfl
          rw [(probe_eq_noDatabase.1 hprobe).1] at hb
          cases hb
        constructor
        · intro hps
          cases e with
          | noDatabase x => exact absurd rfl (hskip x)
          | _ => cases hps
        · rintro ⟨⟨hcaches, -⟩, -⟩
          exact absurd hcaches hnone

theorem probePattern_eq_ok_iff : (s.probePattern h pattern).value = .ok ps ↔
    AdmitsPattern h s pattern ∧ ps = (recognizedBy h s pattern).map (foundAt h s) := by
  have hfields : AdmitsPattern h s pattern ↔
      (∃ ds, DirectoryPattern.expand h pattern = .ok ds) ∧ recognizedBy h s pattern ≠ [] ∧
        ∀ d ∈ recognizedBy h s pattern, HasCaches h s d :=
    ⟨fun ⟨hexpands, hrecognized, hcached⟩ => ⟨hexpands, hrecognized, hcached⟩,
      fun ⟨hexpands, hrecognized, hcached⟩ => ⟨hexpands, hrecognized, hcached⟩⟩
  rw [hfields, probePattern, recognizedBy]
  cases hexpand : DirectoryPattern.expand h pattern with
  | error e => simp
  | ok ds =>
    simp only [Noted.onOk_eq_ok, Noted.value_silent, probeFound_eq_ok_iff, Except.ok.injEq,
      exists_eq', true_and]
    constructor
    · rintro ⟨qs, ⟨hcached, rfl⟩, hps⟩
      split at hps
      · cases hps
      · rename_i hsome
        cases hps
        refine ⟨⟨fun hnil => hsome ?_, hcached⟩, rfl⟩
        rw [hnil]
        rfl
    · rintro ⟨⟨hne, hcached⟩, rfl⟩
      refine ⟨_, ⟨hcached, rfl⟩, if_neg ?_⟩
      rw [List.isEmpty_iff, List.map_eq_nil_iff]
      exact hne

theorem probePatterns_eq_ok_iff : (s.probePatterns h patterns).value = .ok ps ↔
    (∀ p ∈ patterns, AdmitsPattern h s p) ∧
      ps = (patterns.flatMap (recognizedBy h s)).map (foundAt h s) := by
  induction patterns generalizing ps with
  | nil => simp [probePatterns, eq_comm]
  | cons pattern patterns ih =>
    simp only [probePatterns, Noted.onOk_eq_ok, Noted.value_silent, probePattern_eq_ok_iff, ih,
      List.forall_mem_cons, List.flatMap_cons, List.map_append]
    constructor
    · rintro ⟨qs, ⟨hpattern, rfl⟩, rs, ⟨hpatterns, rfl⟩, hps⟩
      cases hps
      exact ⟨⟨hpattern, hpatterns⟩, rfl⟩
    · rintro ⟨⟨hpattern, hpatterns⟩, rfl⟩
      exact ⟨_, ⟨hpattern, rfl⟩, _, ⟨hpatterns, rfl⟩, rfl⟩

/-- **A pattern names its directories in order**, each of them once. -/
theorem pairwise_recognizedBy (h : Host) (s : LayeredDatabase) (pattern : String) :
    (recognizedBy h s pattern).Pairwise Path.Precedes := by
  unfold recognizedBy
  split
  · rename_i ds hds
    exact (DirectoryPattern.pairwise_of_expand hds).sublist List.filter_sublist
  · exact .nil

/-! ## All together or none -/

/-- The database with more directories: every layer has one database more
for each, the base layer what the backends find, and the others what is in
the cache files of their complementers. -/
def extended (h : Host) (s : LayeredDatabase) (ds : List Path) : LayeredDatabase :=
  { s with
    layers := List.zipWith (fun l f => l ++ ds.map f) s.layers (databasesAt h s)
    directories := s.directories ++ ds }

theorem foldl_push_foundAt (hs : IsAligned s) (ds : List Path) :
    (ds.map (foundAt h s)).foldl push s = extended h s ds := by
  refine foldl_push_map (databasesAt h s) ds s ?_
  rw [hs.layers, databasesAt, List.length_cons, List.length_map]

/-- Whether several things are added together just as one by one: if and
only if each can be added, with the directories of all of them in order,
and otherwise none of them. -/
structure AddsTogether {α : Type} (h : Host) (s : LayeredDatabase)
    (add : LayeredDatabase → α → Logged (Except DbError LayeredDatabase))
    (addAll : LayeredDatabase → List α → Logged (Except DbError LayeredDatabase))
    (call : List α → Call) (admits : α → Prop) (named : α → List Path) (xs : List α) : Prop where
  inTurn : addAll s xs = inTurn add s xs
  succeeds : (∃ s', (addAll s xs).value = .ok s') ↔ ∀ x ∈ xs, admits x
  added : ∀ s', (addAll s xs).value = .ok s' →
    s' = extended h s (xs.flatMap named) ∧ (call xs).run h s = s'
  kept : ∀ e, (addAll s xs).value = .error e → (call xs).run h s = s

/-- What has been found is pushed as a whole. -/
theorem commit_eq_ok_iff (hs : IsAligned s) {admits : Prop}
    {found : Logged (Except DbError (List ProbedDirectory))}
    (hfound : ∀ ps, found.value = .ok ps ↔ admits ∧ ps = ds.map (foundAt h s)) :
    (s.commit found).value = .ok s' ↔ admits ∧ s' = extended h s ds := by
  rw [commit_eq_ok]
  constructor
  · rintro ⟨ps, hps, rfl⟩
    obtain ⟨hadmits, rfl⟩ := (hfound ps).1 hps
    exact ⟨hadmits, foldl_push_foundAt hs ds⟩
  · rintro ⟨hadmits, rfl⟩
    exact ⟨_, (hfound _).2 ⟨hadmits, rfl⟩, foldl_push_foundAt hs ds⟩

theorem AddsTogether.of_eq_ok {α : Type}
    {add : LayeredDatabase → α → Logged (Except DbError LayeredDatabase)}
    {addAll : LayeredDatabase → List α → Logged (Except DbError LayeredDatabase)}
    {call : List α → Call} {admits : α → Prop} {named : α → List Path} {xs : List α}
    (hturn : addAll s xs = LayeredDatabase.inTurn add s xs)
    (hrun : (call xs).run h s = s.changed (addAll s xs).value)
    (hok : ∀ s', (addAll s xs).value = .ok s' ↔
      (∀ x ∈ xs, admits x) ∧ s' = extended h s (xs.flatMap named)) :
    AddsTogether h s add addAll call admits named xs where
  inTurn := hturn
  succeeds := by
    constructor
    · rintro ⟨s', hs'⟩
      exact ((hok s').1 hs').1
    · intro hall
      exact ⟨_, (hok _).2 ⟨hall, rfl⟩⟩
  added := by
    intro s' hs'
    refine ⟨((hok s').1 hs').2, ?_⟩
    rw [hrun, hs', changed]
  kept := by
    intro e he
    rw [hrun, he, changed]

/-- **Directories are registered together or not at all**, just as one by
one, and so are the directories of patterns. A failure leaves the
database as it was, with its directories, its complementers and all its
answers. -/
theorem addsTogether (hs : Reachable s) (h : Host) :
    (∀ patterns, AddsTogether h s (addPattern h) (addPatterns h) .addPatterns
      (AdmitsPattern h s) (recognizedBy h s) patterns) ∧
    (∀ pattern, (recognizedBy h s pattern).Pairwise Path.Precedes) ∧
    ∀ ds, AddsTogether h s (addDirectory h) (addDirectories h) .addDirectories
      (AdmitsDirectory h s) (fun d => [d]) ds := by
  have haligned := hs.isAligned
  refine ⟨fun patterns => ?_, pairwise_recognizedBy h s, fun ds => ?_⟩
  · refine .of_eq_ok (addPatterns_eq_inTurn s patterns) rfl fun s' => ?_
    exact commit_eq_ok_iff haligned fun ps => probePatterns_eq_ok_iff
  · refine .of_eq_ok (addDirectories_eq_inTurn s ds) rfl fun s' => ?_
    rw [List.flatMap_singleton']
    exact commit_eq_ok_iff haligned fun ps => probeEach_eq_ok_iff

/-! ## A pattern that names a file -/

namespace Sample

/-- The sample before its directory has been added. -/
def start : LayeredDatabase :=
  { state (fixed [[]]) with
    layers := [[], [], []]
    directories := [] }

theorem reachable_start : Reachable start :=
  .call host (.addComplementer "second" (fixed [[]]))
    (.call host (.addComplementer "first" (fixed [[derived]])) (.new Backends.builtin))

theorem admitsDirectory_start : AdmitsDirectory host start ⟨"/w/b"⟩ where
  recognized := by
    change (Backends.builtin.recognized? host ⟨"/w/b"⟩).isSome = true
    rw [recognized?_builtin, host, ofDirectory?_eq]
    rfl
  cached := by
    intro _ c hc
    obtain ⟨content, hread⟩ := read_cacheFile (fixed [[]]) c hc
    exact Host.isFile_of_read hread

theorem recognizedBy_directory : recognizedBy host start "/w/b" = [⟨"/w/b"⟩] := by
  have hlocate : host.locate ⟨"/w/b"⟩ = .ok (["w", "b"], .directory) :=
    Host.locate_toPath_directory (l := ["w", "b"]) (.inr (by simp [host, hostOf, tree]))
  have hdirectory : host.isDirectory ⟨"/w/b"⟩ = true := by
    rw [Host.isDirectory, hlocate]
  have hexpand : DirectoryPattern.expand host "/w/b" = .ok [⟨"/w/b"⟩] :=
    DirectoryPattern.expand_of_isDirectory (by decide) hdirectory
  rw [recognizedBy, hexpand]
  exact List.filter_cons_of_pos admitsDirectory_start.recognized

theorem recognizedBy_file : recognizedBy host start "/w/b/first.json" = [] := by
  have hlocate : host.locate ⟨"/w/b/first.json"⟩ = .ok (["w", "b", "first.json"], .file _) :=
    locate_files.2.1
  have hdirectory : host.isDirectory ⟨"/w/b/first.json"⟩ = false := by
    rw [Host.isDirectory, hlocate]
  have hwhole : DirectoryPattern.whole "/w/b/first.json" = ⟨"/w/b/first.json"⟩ := by decide
  have hexpand : DirectoryPattern.expand host "/w/b/first.json" = .ok [] := by
    rw [DirectoryPattern.expand_of_not_isGlob (by decide), hwhole, hdirectory]
    rfl
  rw [recognizedBy, hexpand]
  rfl

end Sample

/-- The directory is added as often as it is named, but not together with
a pattern for a file. -/
theorem addsTogether_of_sample :
    Reachable Sample.start ∧
    (Call.addDirectories [⟨"/w/b"⟩]).run Sample.host Sample.start =
      extended Sample.host Sample.start [⟨"/w/b"⟩] ∧
    (Call.addPatterns ["/w/b", "/w/b"]).run Sample.host Sample.start =
      extended Sample.host Sample.start [⟨"/w/b"⟩, ⟨"/w/b"⟩] ∧
    (Call.addPatterns ["/w/b", "/w/b/first.json"]).run Sample.host Sample.start = Sample.start := by
  obtain ⟨hpatterns, -, hdirectories⟩ := addsTogether Sample.reachable_start Sample.host
  have hadmits : AdmitsPattern Sample.host Sample.start "/w/b" := by
    have hrecognized := Sample.recognizedBy_directory
    refine ⟨?_, by rw [hrecognized]; exact List.cons_ne_nil _ _, ?_⟩
    · unfold recognizedBy at hrecognized
      split at hrecognized
      · rename_i ds hds
        exact ⟨ds, hds⟩
      · cases hrecognized
    · rw [hrecognized]
      exact List.forall_mem_singleton.2 Sample.admitsDirectory_start.cached
  refine ⟨Sample.reachable_start, ?_, ?_, ?_⟩
  · obtain ⟨s', hs'⟩ := (hdirectories [⟨"/w/b"⟩]).succeeds.2
      (List.forall_mem_singleton.2 Sample.admitsDirectory_start)
    obtain ⟨rfl, hrun⟩ := (hdirectories [⟨"/w/b"⟩]).added s' hs'
    exact hrun
  · obtain ⟨s', hs'⟩ := (hpatterns ["/w/b", "/w/b"]).succeeds.2
      (List.forall_mem_cons.2 ⟨hadmits, List.forall_mem_singleton.2 hadmits⟩)
    obtain ⟨rfl, hrun⟩ := (hpatterns ["/w/b", "/w/b"]).added s' hs'
    rwa [List.flatMap_cons, List.flatMap_singleton, Sample.recognizedBy_directory] at hrun
  · cases hvalue : (Sample.start.addPatterns Sample.host ["/w/b", "/w/b/first.json"]).value with
    | error e => exact (hpatterns _).kept e hvalue
    | ok s' =>
      have hall := (hpatterns ["/w/b", "/w/b/first.json"]).succeeds.1 ⟨s', hvalue⟩
      exact absurd Sample.recognizedBy_file (hall "/w/b/first.json" (by decide)).recognized

end LayeredDatabase

end CompileCommands
