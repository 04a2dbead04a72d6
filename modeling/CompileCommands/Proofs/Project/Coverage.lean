import CompileCommands.Project.Basic
import CompileCommands.Project.Coverage
import CompileCommands.Proofs.Layers.Once
import CompileCommands.Proofs.Path.Order
import CompileCommands.Proofs.Traversal
/-!
# What is covered

A path is covered if some command of the database is for it, or some
pattern suppresses it (`IsCovered`). A comparison tells the paths of a
listing that are not covered (`Coverage.mem_projectOnly`) and, beside
them, the files of the database that the listing lacks
(`Coverage.mem_databaseOnly`); both sides are spelled in the canonical
way, so that equal paths have equal texts.
-/

namespace CompileCommands

variable {h : Host} {p : Path} {patterns : List String} {s : Suppressions}
variable {known found : List Path} {cs : List CompileCommand}

/-! ## Suppressions -/

namespace Suppressions

/-- Whether every pattern is one for the ends of paths. -/
def AreValid (patterns : List String) : Prop := ∀ t ∈ patterns, ∃ g, globOf t = .ok g

/-- Whether one of the patterns matches the end of the path. -/
def Suppresses (patterns : List String) (p : Path) : Prop :=
  ∃ t ∈ patterns, ∃ g, globOf t = .ok g ∧ g.isMatch false p.text = true

theorem globsOf_eq_mapM (patterns : List String) : globsOf patterns = patterns.mapM globOf := by
  induction patterns with
  | nil => rfl
  | cons t patterns ih =>
    rw [globsOf, List.mapM_cons, ih]
    cases globOf t with
    | error e => rfl
    | ok g => cases patterns.mapM globOf <;> rfl

theorem ofPatterns_eq_ok : ofPatterns patterns = .ok s ↔ patterns.map globOf = s.globs.map .ok := by
  rw [ofPatterns, globsOf_eq_mapM, ← mapM_eq_ok]
  cases patterns.mapM globOf with
  | error e => simp [Except.map]
  | ok gs =>
    constructor
    · intro hs
      obtain rfl := Except.ok.inj hs
      rfl
    · intro hgs
      obtain rfl := Except.ok.inj hgs
      rfl

/-- **Patterns can be read** if each of them can. -/
theorem exists_ofPatterns_iff : (∃ s, ofPatterns patterns = .ok s) ↔ AreValid patterns := by
  constructor
  · rintro ⟨s, hs⟩ t ht
    have hmem : globOf t ∈ s.globs.map .ok := ofPatterns_eq_ok.1 hs ▸ List.mem_map_of_mem ht
    obtain ⟨g, -, hg⟩ := List.mem_map.1 hmem
    exact ⟨g, hg.symm⟩
  · intro hvalid
    cases hglobs : patterns.mapM globOf with
    | ok gs => exact ⟨⟨gs⟩, ofPatterns_eq_ok.2 (mapM_eq_ok.1 hglobs)⟩
    | error e =>
      obtain ⟨t, ht, hbad⟩ := mapM_eq_error hglobs
      obtain ⟨g, hg⟩ := hvalid t ht
      rw [hg] at hbad
      cases hbad

/-- **A path is suppressed** if one of the patterns matches it. -/
theorem covers_iff (hs : ofPatterns patterns = .ok s) :
    s.covers p = true ↔ Suppresses patterns p := by
  have hglobs := ofPatterns_eq_ok.1 hs
  rw [covers, List.any_eq_true]
  constructor
  · rintro ⟨g, hg, hmatch⟩
    have hmem : Except.ok g ∈ patterns.map globOf := hglobs ▸ List.mem_map_of_mem hg
    obtain ⟨t, ht, htg⟩ := List.mem_map.1 hmem
    exact ⟨t, ht, g, htg, hmatch⟩
  · rintro ⟨t, ht, g, htg, hmatch⟩
    have hmem : Except.ok g ∈ s.globs.map .ok := htg ▸ hglobs ▸ List.mem_map_of_mem ht
    obtain ⟨g', hg', heq⟩ := List.mem_map.1 hmem
    obtain rfl := Except.ok.inj heq
    exact ⟨g', hg', hmatch⟩

theorem Suppresses.mono {patterns' : List String} (hmore : ∀ t ∈ patterns, t ∈ patterns')
    (hp : Suppresses patterns p) : Suppresses patterns' p := by
  obtain ⟨t, ht, hmatch⟩ := hp
  exact ⟨t, hmore t ht, hmatch⟩

end Suppressions

/-! ## The files of a database -/

/-- Whether one of the commands is for the path. -/
def IsKnown (cs : List CompileCommand) (p : Path) : Prop := ∃ c ∈ cs, c.normalizedFile = p

theorem isKnown_iff : IsKnown cs p ↔ p ∈ cs.map CompileCommand.normalizedFile := List.mem_map.symm

/-- **The files of a project** are those of its commands. -/
theorem Project.files_eq_ok {project : Project} (hknown : project.files h true = .ok known) :
    ∃ cs, project.commands h false = .ok cs ∧ ∀ p, p ∈ known ↔ IsKnown cs p := by
  cases project with
  | unconfigured =>
    cases hknown
    refine ⟨[], rfl, fun p => ⟨fun hp => absurd hp List.not_mem_nil, ?_⟩⟩
    rintro ⟨c, hc, -⟩
    exact absurd hc List.not_mem_nil
  | layered db =>
    cases hcs : Database.commandsAll h db.layers.flatten with
    | error e =>
      rw [files, LayeredDatabase.files_eq, hcs] at hknown
      cases hknown
    | ok cs =>
      rw [files, LayeredDatabase.files_true_eq hcs] at hknown
      obtain rfl := Except.ok.inj hknown
      refine ⟨cs, (LayeredDatabase.commands_eq_commandsAll h db).trans hcs, fun p => ?_⟩
      rw [mem_firstOfEach, isKnown_iff]
      exact and_iff_right List.not_mem_nil

/-- And they can be listed if the commands can. -/
theorem Project.exists_files {project : Project} (hcs : project.commands h false = .ok cs) :
    ∃ known, project.files h true = .ok known := by
  cases project with
  | unconfigured => exact ⟨[], rfl⟩
  | layered db =>
    have hall := (LayeredDatabase.commands_eq_commandsAll h db).symm.trans hcs
    exact ⟨_, LayeredDatabase.files_true_eq hall⟩

/-- The files of commands are spelled in the canonical way. -/
theorem normalize_of_isKnown (hp : IsKnown cs p) : p.normalize = p := by
  obtain ⟨c, -, rfl⟩ := hp
  exact Path.normalize_normalize _

/-! ## The comparison -/

/-- Whether a path needs no more: a command is for it, or a pattern
suppresses it. -/
def IsCovered (cs : List CompileCommand) (patterns : List String) (p : Path) : Prop :=
  IsKnown cs p ∨ Suppressions.Suppresses patterns p

/-- More commands and more patterns cover more. -/
theorem IsCovered.mono {cs' : List CompileCommand} {patterns' : List String}
    (hcs : ∀ c ∈ cs, c ∈ cs') (hmore : ∀ t ∈ patterns, t ∈ patterns')
    (hp : IsCovered cs patterns p) : IsCovered cs' patterns' p := by
  rcases hp with ⟨c, hc, hfile⟩ | hsuppressed
  · exact .inl ⟨c, hcs c hc, hfile⟩
  · exact .inr (hsuppressed.mono hmore)

namespace Coverage

theorem distinct_eq_sortPaths (hps : Path.AreNormal found) : distinct found = sortPaths found := by
  rw [sortPaths_eq_dropRepeats hps]
  refine Path.foldr_eq_dropRepeats (fun _ => rfl) (fun p kept => ?_) (fun p q kept hne => ?_) ?_
  · exact if_pos (Path.same_iff.2 rfl)
  · exact if_neg (Bool.eq_false_iff.1 hne)
  · exact fun p hp => hps p (List.mem_mergeSort.1 hp)

/-- **Of paths in the canonical spelling**, the same is equal. -/
theorem knows_iff (hknown : Path.AreNormal known) (hp : p.normalize = p) :
    knows known p = true ↔ p ∈ known := by
  rw [knows, List.any_eq_true]
  constructor
  · rintro ⟨q, hq, hsame⟩
    rw [Path.eq_of_same hp (hknown q hq) hsame]
    exact hq
  · exact fun hmem => ⟨p, hmem, Path.same_iff.2 rfl⟩

/-- What a comparison tells about the project comes in the order of the
listing. -/
theorem projectOnly_sublist (hfound : Path.AreNormal found) (hstrict : found.Pairwise Path.Precedes) :
    (compare known found s).projectOnly.Sublist found := by
  rw [compare, distinct_eq_sortPaths hfound, sortPaths_of_pairwise hfound hstrict]
  exact List.filter_sublist

/-- **The project alone has** the listed paths that the database lacks and
that are not suppressed. -/
theorem mem_projectOnly (hknown : Path.AreNormal known) (hfound : Path.AreNormal found) :
    p ∈ (compare known found s).projectOnly ↔ p ∈ found ∧ ¬ (p ∈ known ∨ s.covers p = true) := by
  rw [compare, distinct_eq_sortPaths hfound, List.mem_filter, mem_sortPaths hfound]
  refine and_congr_right fun hp => ?_
  rw [Bool.and_eq_true, Bool.not_eq_true', Bool.not_eq_true', ← Bool.not_eq_true,
    knows_iff hknown (hfound p hp), ← Bool.not_eq_true, not_or]

/-- **The database alone has** the files that are not listed. -/
theorem mem_databaseOnly (hknown : Path.AreNormal known) (hfound : Path.AreNormal found) :
    p ∈ (compare known found s).databaseOnly ↔ p ∈ known ∧ p ∉ found := by
  rw [compare, distinct_eq_sortPaths hknown, List.mem_filter, mem_sortPaths hknown]
  refine and_congr_right fun hp => ?_
  rw [Bool.not_eq_true', ← Bool.not_eq_true, knows_iff hfound (hknown p hp)]

theorem pairwise_databaseOnly (hknown : Path.AreNormal known) :
    (compare known found s).databaseOnly.Pairwise Path.Precedes := by
  rw [compare, distinct_eq_sortPaths hknown]
  exact (pairwise_sortPaths known).sublist List.filter_sublist

theorem isComplete_iff {c : Coverage} : c.isComplete = true ↔ c.projectOnly = [] :=
  List.isEmpty_iff

end Coverage

end CompileCommands
