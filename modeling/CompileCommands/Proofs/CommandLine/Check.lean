import CompileCommands.CommandLine.Run
import CompileCommands.Proofs.Config.Precedence
import CompileCommands.Proofs.Layers.Calls
import CompileCommands.Proofs.Project.Coverage
import CompileCommands.Proofs.Project.Files
import CompileCommands.Proofs.Project.Opening
/-!
# What a check decides

A check passes if every file of the project is covered, and otherwise
prints the files that are not (`Compares.value_of_covered`,
`Compares.value_of_uncovered`, `Compares.exists_coverage`). Nothing else
counts: not what the database has beside the files of the project, nor
the order and the repetition of the roots; and more commands or more
patterns never make a check fail that passed (`check_decides_coverage`).
-/

namespace CompileCommands

/-! ## What is written besides the log -/

/-- Whether something that a run writes belongs to its log. -/
def Output.isLog : Output → Bool
  | .log _ => true
  | _ => false

namespace Told

variable {α β ε : Type} {failure : ε → Failure} {x : Told α} {f : α → Told β} {a : α}

/-- What is written besides the log. -/
def written (x : Told α) : List Output := x.notes.filter fun o => !o.isLog

theorem written_onOk (hx : x.value = .ok a) :
    written (x.onOk f) = x.written ++ (f a).written := by
  unfold written Noted.onOk Noted.andThen
  rw [hx, List.filter_append]

theorem value_onOk (hx : x.value = .ok a) : (x.onOk f).value = (f a).value := by
  unfold Noted.onOk Noted.andThen
  rw [hx]

theorem written_onOk_of_error {e : Failure} (hx : x.value = .error e) :
    written (x.onOk f) = x.written := by
  unfold written Noted.onOk Noted.andThen
  rw [hx]
  exact congrArg _ (List.append_nil _)

theorem written_ofLogged (x : Logged (Except ε α)) : (ofLogged failure x).written = [] := by
  unfold written ofLogged
  rw [List.filter_eq_nil_iff]
  intro o ho
  obtain ⟨line, -, rfl⟩ := List.mem_map.1 ho
  exact Bool.false_ne_true

theorem mapError_eq_ok {x : Except ε α} : x.mapError failure = .ok a ↔ x = .ok a := by
  cases x <;> simp [Except.mapError]

theorem ofExcept_eq_ok {x : Except ε α} : (ofExcept failure x).value = .ok a ↔ x = .ok a :=
  mapError_eq_ok

end Told

namespace Session

variable {s s' : Session} {roots : List Path} {groups : List FileGroup} {patterns : List String}
variable {files found known : List Path} {all : List String} {cs : List CompileCommand}
variable {suppressions : Suppressions} {project : Project} {code : Nat}

/-- Opening a project writes nothing but log lines. -/
theorem written_project (s : Session) (strict : Bool) : (s.project strict).written = [] := by
  unfold project
  cases hconfig : s.config.value with
  | error e => rw [Told.written_onOk_of_error hconfig]; exact Told.written_ofLogged _
  | ok c =>
    rw [Told.written_onOk hconfig, Told.written_ofLogged, List.append_nil]
    exact Told.written_ofLogged _

/-! ## What is compared -/

/-- What a check compares: the patterns given and those in the files, the
commands of the project's database, and the files of the project. -/
structure Compares (s : Session) (roots : List Path) (groups : List FileGroup)
    (patterns : List String) (files : List Path) (all : List String) (cs : List CompileCommand)
    (found : List Path) : Prop where
  patterns : ∃ more, s.patternsOf files = .ok more ∧ all = patterns ++ more
  valid : Suppressions.AreValid all
  commands : ∃ project, (s.project true).value = .ok project ∧
    project.commands s.host false = .ok cs
  listing : s.host.projectFiles groups roots = .ok found

theorem suppressions_eq_ok : s.suppressions patterns files = .ok suppressions ↔
    ∃ more, s.patternsOf files = .ok more ∧
      Suppressions.ofPatterns (patterns ++ more) = .ok suppressions := by
  unfold Session.suppressions
  cases s.patternsOf files with
  | error e => simp [bind, Except.bind]
  | ok more =>
    change (Suppressions.ofPatterns (patterns ++ more)).mapError _ = _ ↔ _
    rw [Told.mapError_eq_ok]
    simp

theorem isLog_of_mem_summary {side : String} {o : Output} (ho : o ∈ s.summary side found) :
    o.isLog = false := by
  unfold summary at ho
  split at ho
  · cases ho
  · rcases List.mem_cons.1 ho with rfl | ho
    · rfl
    · obtain ⟨p, -, rfl⟩ := List.mem_map.1 ho
      rfl

/-- The message that ends a check which has found files missing. -/
def missingMessage : Output :=
  .message "error: some files are missing from the compilation database(s)\n"

/-- The report on a project without missing files. -/
theorem report_of_eq_nil {c : Coverage} (hc : c.projectOnly = []) :
    s.report c = ⟨s.summary "compilation database(s)" c.databaseOnly, .ok 0⟩ := by
  unfold report
  exact if_pos (Coverage.isComplete_iff.2 hc)

/-- The report on a project with missing files. -/
theorem report_of_ne_nil {c : Coverage} (hc : c.projectOnly ≠ []) :
    s.report c = ⟨s.summary "compilation database(s)" c.databaseOnly ++
      s.summary "project(s)" c.projectOnly ++ [missingMessage], .ok 1⟩ := by
  unfold report
  exact if_neg fun hcomplete => hc (Coverage.isComplete_iff.1 hcomplete)

theorem written_summary (side : String) (found : List Path) :
    (s.summary side found).filter (fun o => !o.isLog) = s.summary side found := by
  rw [List.filter_eq_self]
  intro o ho
  rw [isLog_of_mem_summary ho]
  rfl

theorem written_report (s : Session) (c : Coverage) : (s.report c).written =
    s.summary "compilation database(s)" c.databaseOnly ++ s.summary "project(s)" c.projectOnly ++
      if c.projectOnly = [] then [] else [missingMessage] := by
  unfold Told.written
  by_cases hc : c.projectOnly = []
  · rw [report_of_eq_nil hc, if_pos hc, hc, written_summary, List.append_nil]
    exact (List.append_nil _).symm
  · rw [report_of_ne_nil hc, if_neg hc, List.filter_append, List.filter_append, written_summary,
      written_summary]
    rfl

/-- **A check reports a comparison** once both sides are known. -/
theorem check_of_ok (hsuppressions : s.suppressions patterns files = .ok suppressions)
    (hproject : (s.project true).value = .ok project)
    (hknown : project.files s.host true = .ok known)
    (hfound : s.host.projectFiles groups roots = .ok found) :
    (s.check roots groups patterns files).value =
        (s.report (Coverage.compare known found suppressions)).value ∧
      (s.check roots groups patterns files).written =
        (s.report (Coverage.compare known found suppressions)).written := by
  have hgiven : (Told.ofExcept id (s.suppressions patterns files)).value = .ok suppressions :=
    Told.ofExcept_eq_ok.2 hsuppressions
  have hlisted : (Told.ofExcept Failure.database (project.files s.host true)).value = .ok known :=
    Told.ofExcept_eq_ok.2 hknown
  have hscanned : (s.projectFiles roots groups).value = .ok found := Told.ofExcept_eq_ok.2 hfound
  unfold check
  constructor
  · rw [Told.value_onOk hgiven, Told.value_onOk hproject, Told.value_onOk hlisted,
      Told.value_onOk hscanned, Told.value_onOk rfl]
  · rw [Told.written_onOk hgiven, Told.written_onOk hproject, Told.written_onOk hlisted,
      Told.written_onOk hscanned, Told.written_onOk rfl, written_project]
    rfl

/-- **A check that comes to an end** has compared something. -/
theorem exists_compares (hcheck : (s.check roots groups patterns files).value = .ok code) :
    ∃ all cs found, s.Compares roots groups patterns files all cs found := by
  unfold check at hcheck
  obtain ⟨suppressions, hgiven, hcheck⟩ := Noted.onOk_eq_ok.1 hcheck
  obtain ⟨project, hproject, hcheck⟩ := Noted.onOk_eq_ok.1 hcheck
  obtain ⟨known, hlisted, hcheck⟩ := Noted.onOk_eq_ok.1 hcheck
  obtain ⟨found, hscanned, -⟩ := Noted.onOk_eq_ok.1 hcheck
  obtain ⟨more, hmore, hall⟩ := suppressions_eq_ok.1 (Told.ofExcept_eq_ok.1 hgiven)
  obtain ⟨cs, hcs, -⟩ := Project.files_eq_ok (Told.ofExcept_eq_ok.1 hlisted)
  exact ⟨patterns ++ more, cs, found, ⟨more, hmore, rfl⟩,
    Suppressions.exists_ofPatterns_iff.1 ⟨_, hall⟩, ⟨project, hproject, hcs⟩,
    Told.ofExcept_eq_ok.1 hscanned⟩

namespace Compares

/-- A check compares one thing only. -/
theorem unique {all' : List String} {cs' : List CompileCommand} {found' : List Path}
    (hs : s.Compares roots groups patterns files all cs found)
    (hs' : s.Compares roots groups patterns files all' cs' found') :
    all' = all ∧ cs' = cs ∧ found' = found := by
  obtain ⟨⟨more, hmore, rfl⟩, -, ⟨project, hproject, hcs⟩, hfound⟩ := hs
  obtain ⟨⟨more', hmore', rfl⟩, -, ⟨project', hproject', hcs'⟩, hfound'⟩ := hs'
  obtain rfl := Except.ok.inj (hmore.symm.trans hmore')
  obtain rfl := Except.ok.inj (hproject.symm.trans hproject')
  obtain rfl := Except.ok.inj (hcs.symm.trans hcs')
  exact ⟨rfl, rfl, Except.ok.inj (hfound'.symm.trans hfound)⟩

/-- **What is compared decides the check**: there is one coverage that it
reports, and the files which the project alone has are those that are not
covered. -/
theorem exists_coverage (hs : s.Compares roots groups patterns files all cs found) :
    ∃ c : Coverage, (s.check roots groups patterns files).value = (s.report c).value ∧
      (s.check roots groups patterns files).written = (s.report c).written ∧
      c.projectOnly.Sublist found ∧
      (∀ p, p ∈ c.projectOnly ↔ p ∈ found ∧ ¬ IsCovered cs all p) ∧
      c.databaseOnly.Pairwise Path.Precedes ∧
      ∀ p, p ∈ c.databaseOnly ↔ IsKnown cs p ∧ p ∉ found := by
  obtain ⟨⟨more, hmore, rfl⟩, hvalid, ⟨project, hproject, hcs⟩, hfound⟩ := hs
  obtain ⟨suppressions, hsuppressions⟩ := Suppressions.exists_ofPatterns_iff.2 hvalid
  obtain ⟨known, hknown⟩ := Project.exists_files hcs
  obtain ⟨cs', hcs', hmem⟩ := Project.files_eq_ok hknown
  obtain rfl := Except.ok.inj (hcs.symm.trans hcs')
  -- both sides are spelled in the canonical way
  have hknown' : Path.AreNormal known := fun p hp => normalize_of_isKnown ((hmem p).1 hp)
  have hfound' : Path.AreNormal found :=
    fun p hp => (Host.isCanonical_of_mem_projectFiles hfound hp).2
  have hstrict := (Host.projectFiles_eq_ok_iff.1 hfound).2.1
  obtain ⟨hvalue, hwritten⟩ :=
    check_of_ok (suppressions_eq_ok.2 ⟨more, hmore, hsuppressions⟩) hproject hknown hfound
  refine ⟨Coverage.compare known found suppressions, hvalue, hwritten,
    Coverage.projectOnly_sublist hfound' hstrict, fun p => ?_,
    Coverage.pairwise_databaseOnly hknown', fun p => ?_⟩
  · rw [Coverage.mem_projectOnly hknown' hfound', hmem, Suppressions.covers_iff hsuppressions]
    rfl
  · rw [Coverage.mem_databaseOnly hknown' hfound', hmem]

/-- **A check passes** if all files of the project are covered. -/
theorem value_of_covered (hs : s.Compares roots groups patterns files all cs found)
    (hcovered : ∀ p ∈ found, IsCovered cs all p) :
    (s.check roots groups patterns files).value = .ok 0 := by
  obtain ⟨c, hvalue, -, -, hmem, -⟩ := hs.exists_coverage
  have hnil : c.projectOnly = [] := by
    refine List.eq_nil_iff_forall_not_mem.2 fun p hp => ?_
    obtain ⟨hfound, hnot⟩ := (hmem p).1 hp
    exact hnot (hcovered p hfound)
  rw [hvalue, report_of_eq_nil hnil]

/-- **And fails otherwise**. -/
theorem value_of_uncovered (hs : s.Compares roots groups patterns files all cs found)
    {p : Path} (hp : p ∈ found) (hnot : ¬ IsCovered cs all p) :
    (s.check roots groups patterns files).value = .ok 1 := by
  obtain ⟨c, hvalue, -, -, hmem, -⟩ := hs.exists_coverage
  have hne : c.projectOnly ≠ [] := List.ne_nil_of_mem ((hmem p).2 ⟨hp, hnot⟩)
  rw [hvalue, report_of_ne_nil hne]

end Compares

/-! ## Coverage of the project -/

/-- **A check decides whether the project is covered.** The files that it
lists are those of the project, in strict order, and the set of the roots
decides them. It passes if each of them is covered, and otherwise prints
those that are not. Where the same files are listed, the check depends on
no other file that a database has, and with more commands and more patterns
it passes if it passed before. -/
theorem check_decides_coverage
    (hcheck : (s.check roots groups patterns files).value = .ok code) :
    ∃ all cs found, s.Compares roots groups patterns files all cs found ∧
      (found.Pairwise Path.Precedes ∧ found.Nodup ∧
        (∀ p, p ∈ found ↔ s.host.IsProjectFile groups roots p) ∧
        ∀ roots', (∀ r, r ∈ roots' ↔ r ∈ roots) →
          s.host.projectFiles groups roots' = .ok found) ∧
      ((code = 0 ↔ ∀ p ∈ found, IsCovered cs all p) ∧ (code ≠ 0 → code = 1)) ∧
      (∃ databaseOnly missing, (s.check roots groups patterns files).written =
          s.summary "compilation database(s)" databaseOnly ++ s.summary "project(s)" missing ++
            (if missing = [] then [] else [missingMessage]) ∧
        missing.Sublist found ∧ (∀ p, p ∈ missing ↔ p ∈ found ∧ ¬ IsCovered cs all p) ∧
        databaseOnly.Pairwise Path.Precedes ∧
        ∀ p, p ∈ databaseOnly ↔ IsKnown cs p ∧ p ∉ found) ∧
      ∀ s' roots' groups' patterns' files' all' cs',
        Compares s' roots' groups' patterns' files' all' cs' found →
        ((∀ p ∈ found, (IsKnown cs' p ↔ IsKnown cs p)) → (∀ t, t ∈ all' ↔ t ∈ all) →
          (s'.check roots' groups' patterns' files').value = .ok code) ∧
        (code = 0 → (∀ c ∈ cs, c ∈ cs') → (∀ t ∈ all, t ∈ all') →
          (s'.check roots' groups' patterns' files').value = .ok 0) := by
  obtain ⟨all, cs, found, hs⟩ := exists_compares hcheck
  obtain ⟨hthere, hstrict, hmem⟩ := Host.projectFiles_eq_ok_iff.1 hs.listing
  have hcode : (code = 0 ∧ ∀ p ∈ found, IsCovered cs all p) ∨
      (code = 1 ∧ ∃ p ∈ found, ¬ IsCovered cs all p) := by
    by_cases hcovered : ∀ p ∈ found, IsCovered cs all p
    · exact .inl ⟨Except.ok.inj (hcheck.symm.trans (hs.value_of_covered hcovered)), hcovered⟩
    · push Not at hcovered
      obtain ⟨p, hp, hnot⟩ := hcovered
      exact .inr ⟨Except.ok.inj (hcheck.symm.trans (hs.value_of_uncovered hp hnot)), p, hp, hnot⟩
  refine ⟨all, cs, found, hs, ⟨hstrict, ?nodup, hmem, ?roots⟩, ?status, ?printed, ?others⟩
  case nodup => exact hstrict.nodup
  case roots =>
    intro roots' hroots
    refine Host.projectFiles_eq_ok_iff.2
      ⟨fun r hr => hthere r ((hroots r).1 hr), hstrict, fun p => ?_⟩
    rw [hmem]
    unfold Host.IsProjectFile
    simp only [hroots]
  case status =>
    rcases hcode with ⟨rfl, hcovered⟩ | ⟨rfl, p, hp, hnot⟩
    · exact ⟨⟨fun _ => hcovered, fun _ => rfl⟩, fun hne => absurd rfl hne⟩
    · exact ⟨⟨fun hone => absurd hone Nat.one_ne_zero, fun hall => absurd (hall p hp) hnot⟩,
        fun _ => rfl⟩
  case printed =>
    obtain ⟨c, -, hwritten, hsub, hmissing, hother, hdatabase⟩ := hs.exists_coverage
    exact ⟨c.databaseOnly, c.projectOnly, hwritten.trans (written_report s c), hsub, hmissing,
      hother, hdatabase⟩
  case others =>
    intro s' roots' groups' patterns' files' all' cs' hs'
    constructor
    · intro hknown hall
      have hsame : ∀ p ∈ found, (IsCovered cs' all' p ↔ IsCovered cs all p) := by
        intro p hp
        exact or_congr (hknown p hp)
          ⟨.mono fun t ht => (hall t).1 ht, .mono fun t ht => (hall t).2 ht⟩
      rcases hcode with ⟨rfl, hcovered⟩ | ⟨rfl, p, hp, hnot⟩
      · exact hs'.value_of_covered fun p hp => (hsame p hp).2 (hcovered p hp)
      · exact hs'.value_of_uncovered hp fun hp' => hnot ((hsame p hp).1 hp')
    · rintro hzero hcs hall
      rcases hcode with ⟨-, hcovered⟩ | ⟨hone, -⟩
      · exact hs'.value_of_covered fun p hp => (hcovered p hp).mono hcs hall
      · exact absurd (hone.symm.trans hzero) Nat.one_ne_zero

end Session

/-! ## A header without a command -/

namespace Uncovered

open Project.Sample (host command)

/-- The build directory holds a source with a command, and a header. -/
def session : Session := ⟨host, [⟨.buildDirectories, "/b"⟩], ⟨"/"⟩⟩

/-- The database without its directory. -/
def start : LayeredDatabase := { LayeredDatabase.new Backends.builtin with strict := true }

def found : ProbedDirectory := ⟨⟨"/b"⟩, [.json ⟨"/b/compile_commands.json"⟩ none]⟩

def groups : List FileGroup := [.source, .header]

theorem localConfig?_host : host.localConfig? ⟨"/"⟩ = none := by
  have hancestors : (host.absolutePath ⟨"/"⟩).ancestors = [⟨"/"⟩] := by decide
  have hnothing : host.pathExists ((⟨"/"⟩ : Path).join ⟨Host.localConfigName⟩) = false := by
    have hspot : host.spot ((⟨"/"⟩ : Path).join ⟨Host.localConfigName⟩) =
        .ok (.vacant [".compdb"]) := by
      refine Host.spot_eq_ok_iff.2 ⟨by decide, by decide, [], rfl, ?_⟩
      rw [show Text.fields (· == '/') ((⟨"/"⟩ : Path).join ⟨Host.localConfigName⟩).chars =
        [[], ['.', 'c', 'o', 'm', 'p', 'd', 'b']] by decide, FileTree.follow_idle rfl,
        FileTree.follow_none (n := ".compdb") (by decide) rfl]
      rfl
    rw [Host.pathExists, Host.locate, hspot]
    rfl
  rw [Host.localConfig?, Host.enclosing?, hancestors, List.find?_cons_of_neg (by simp [hnothing])]
  rfl

theorem config_session : session.config.value = .ok ⟨["/b"], [], []⟩ := by
  have huser : Config.userFile? host = none := by decide
  have hsources : Config.sources host session.overrides session.directory =
      .ok [ConfigSource.ofOverrides session.overrides session.directory] := by
    refine Config.sources_eq_ok.2 ⟨none, none, huser ▸ .absent, ?_, rfl⟩
    exact (show host.localConfig? session.directory = none from localConfig?_host) ▸ .absent
  have hload := Config.load_eq_ok.2 ⟨_, hsources, rfl⟩
  have hvalue : Config.ofSources [ConfigSource.ofOverrides session.overrides session.directory] =
      ⟨["/b"], [], []⟩ := by decide
  rw [hvalue] at hload
  exact Told.mapError_eq_ok.2 hload

theorem project_session : (session.project true).value = .ok (.layered (start.push found)) := by
  have hbackend : Backends.builtin.recognized? host ⟨"/b"⟩ =
      some (.json, .json ⟨"/b/compile_commands.json"⟩ none) :=
    (LayeredDatabase.recognized?_builtin host ⟨"/b"⟩).trans
      (congrArg _ Project.Sample.ofDirectory?_base)
  have hprobe : (start.probe host ⟨"/b"⟩).value = .ok found :=
    LayeredDatabase.probe_eq_ok.2 ⟨⟨.json, _, [], hbackend, rfl, rfl⟩, rfl⟩
  have hpattern : (start.probePattern host "/b").value = .ok [found] :=
    LayeredDatabase.probePattern_of_expand Project.Sample.expand_directory hprobe
  have hpatterns : (start.probePatterns host ["/b"]).value = .ok [found] :=
    Noted.onOk_eq_ok.2 ⟨[found], hpattern, Noted.onOk_eq_ok.2 ⟨[], rfl, rfl⟩⟩
  have hlayers : (Project.openLayers host ⟨["/b"], [], []⟩ true).value =
      .ok (start.push found) :=
    Project.openLayers_eq_ok.2
      ⟨start, rfl, LayeredDatabase.commit_eq_ok.2 ⟨[found], hpatterns, rfl⟩⟩
  refine Noted.onOk_eq_ok.2 ⟨_, config_session, Told.mapError_eq_ok.2 ?_⟩
  rw [Project.ofConfig, if_neg (by decide)]
  exact Noted.onOk_eq_ok.2 ⟨_, hlayers, rfl⟩

theorem commands_session :
    (Project.layered (start.push found)).commands host false = .ok [command] := by
  have hload : CommandFile.load host ⟨"/b/compile_commands.json"⟩ = .ok [command] :=
    CommandFile.load_of_read Project.Sample.read_base
  have hall : Database.commandsAll host (start.push found).layers.flatten = .ok [command] :=
    Database.chain_eq_ok.2 ⟨[command], [], hload, rfl, rfl⟩
  exact (LayeredDatabase.commands_eq_commandsAll _ _).trans hall

theorem projectFiles_session :
    host.projectFiles groups [⟨"/b"⟩] = .ok [⟨"/b/a.c"⟩, ⟨"/b/a.h"⟩] := by
  have hbelow : host.filesBelow groups ⟨"/b"⟩ = [⟨"/b/a.c"⟩, ⟨"/b/a.h"⟩] := by
    rw [Host.filesBelow, Host.walk, Project.Sample.locate_directory]
    rfl
  have hat : host.filesAt groups (host.logicalPath ⟨"/b"⟩) =
      some [⟨"/b/a.c"⟩, ⟨"/b/a.h"⟩] := by
    have hlogical : host.logicalPath ⟨"/b"⟩ = ⟨"/b"⟩ := by decide
    rw [hlogical, Host.filesAt, if_pos Project.Sample.isDirectory_directory, hbelow]
  have hsorted : ([⟨"/b/a.c"⟩, ⟨"/b/a.h"⟩] : List Path).Pairwise Path.Precedes :=
    List.pairwise_pair.2 ⟨by decide, by decide⟩
  refine Host.projectFiles_eq_ok.2
    ⟨_, Host.filesAtEach_cons_eq_ok.2 ⟨_, [], hat, rfl, rfl⟩, ?_⟩
  have hnormal : Path.AreNormal [⟨"/b/a.c"⟩, ⟨"/b/a.h"⟩] :=
    List.forall_mem_cons.2 ⟨by decide, List.forall_mem_singleton.2 (by decide)⟩
  exact (sortPaths_of_pairwise hnormal hsorted).symm

/-- What the check compares with the given valid patterns. -/
theorem compares {patterns : List String} (hvalid : Suppressions.AreValid patterns) :
    session.Compares [⟨"/b"⟩] groups patterns [] patterns [command] [⟨"/b/a.c"⟩, ⟨"/b/a.h"⟩] where
  patterns := ⟨[], rfl, (List.append_nil _).symm⟩
  valid := hvalid
  commands := ⟨_, project_session, commands_session⟩
  listing := projectFiles_session

theorem isKnown_source : IsKnown [command] ⟨"/b/a.c"⟩ :=
  ⟨command, List.mem_singleton_self _, by decide⟩

theorem exists_globOf_header : ∃ g, Suppressions.globOf "a.h" = .ok g ∧
    g.isMatch false "/b/a.h" = true := by
  refine ⟨_, rfl, ?_⟩
  rw [Glob.isMatch, Text.toList_toUTF8]
  decide

end Uncovered

open Uncovered Project.Sample in
/-- A pattern for the header makes the check pass, and so it does with one
more pattern; without a pattern the check fails. -/
theorem Session.check_decides_coverage_of_header :
    (session.check [⟨"/b"⟩] groups ["a.h"] []).value = .ok 0 ∧
    (session.check [⟨"/b"⟩] groups ["b.h", "a.h"] []).value = .ok 0 ∧
    (session.check [⟨"/b"⟩] groups [] []).value = .ok 1 := by
  have hheader : Suppressions.AreValid ["a.h"] := List.forall_mem_singleton.2 ⟨_, rfl⟩
  have hboth : Suppressions.AreValid ["b.h", "a.h"] := List.forall_mem_cons.2 ⟨⟨_, rfl⟩, hheader⟩
  have hcovered : ∀ p ∈ [(⟨"/b/a.c"⟩ : Path), ⟨"/b/a.h"⟩], IsCovered [command] ["a.h"] p := by
    refine List.forall_mem_cons.2 ⟨.inl isKnown_source, List.forall_mem_singleton.2 (.inr ?_)⟩
    exact ⟨"a.h", List.mem_singleton_self _, exists_globOf_header⟩
  have hnot : ¬ IsCovered [command] [] ⟨"/b/a.h"⟩ := by
    rintro (⟨c, hc, hfile⟩ | ⟨t, ht, -⟩)
    · obtain rfl := List.mem_singleton.1 hc
      exact absurd hfile (by decide)
    · exact absurd ht List.not_mem_nil
  have hcheck : (session.check [⟨"/b"⟩] groups ["a.h"] []).value = .ok 0 :=
    (compares hheader).value_of_covered hcovered
  obtain ⟨all, cs, found, hs, -, -, -, hothers⟩ := check_decides_coverage hcheck
  obtain ⟨rfl, rfl, rfl⟩ := (compares hheader).unique hs
  refine ⟨hcheck, ?_, (compares fun t ht => absurd ht List.not_mem_nil).value_of_uncovered
    (List.mem_cons_of_mem _ (List.mem_singleton_self _)) hnot⟩
  exact (hothers _ _ _ _ _ _ _ (compares hboth)).2 rfl (fun c hc => hc)
    fun t ht => List.mem_cons_of_mem _ ht

end CompileCommands
