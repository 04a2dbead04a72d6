import CompileCommands.CommandLine.Invocation
import CompileCommands.Layers.Update
import CompileCommands.Project.Coverage
import CompileCommands.Project.Files
import CompileCommands.Project.Lookup
/-!
# Runs

What a run does for its task: what it writes, in order, the host it
leaves, and its exit code, or the failure that ended it. Only an update
changes the host.
-/

namespace CompileCommands

/-- Something that a run writes. -/
inductive Output where
  /-- Text of the result. -/
  | result (text : String)
  /-- Text of a message beside the result. -/
  | message (text : String)
  | log (line : LogLine)
deriving DecidableEq, Repr

/-- A value with what has been written on the way to it, unless the run
has failed. -/
abbrev Told (α : Type) := Noted Output (Except Failure α)

namespace Told

variable {α ε : Type}

/-- Writes something. -/
def tell (outputs : List Output) : Told Unit := ⟨outputs, .ok ()⟩

/-- A value that may be a failure. -/
def ofExcept (failure : ε → Failure) (x : Except ε α) : Told α :=
  .silent (x.mapError failure)

/-- A value with log lines. -/
def ofLogged (failure : ε → Failure) (x : Logged (Except ε α)) : Told α :=
  ⟨x.notes.map .log, x.value.mapError failure⟩

end Told

/-- What a task starts from: its host, the overrides of its configuration
and the working directory as the user sees it. -/
structure Session where
  host : Host
  overrides : List Override
  directory : Path

namespace Session

/-- The configuration. -/
def config (s : Session) : Told Config :=
  Told.ofLogged .config (Config.load s.host s.overrides s.directory)

/-- The project. -/
def project (s : Session) (strict : Bool) : Told Project :=
  s.config.onOk fun c => Told.ofLogged id (Project.ofConfig s.host c strict)

/-! ## Listing commands -/

/-- The warning for a file without a command. -/
def missingWarning (s : Session) (p : Path) : Output :=
  .message ("warning: " ++ (s.host.shorten p).text ++ ": no compile command found\n")

/-- Prints the commands for files, or all commands if there are no files.
The exit code tells whether a file has no command. -/
def list (s : Session) (unique : Bool) (files : List Path) : Told Nat :=
  (s.project true).onOk fun project =>
    if files.isEmpty then
      (Told.ofExcept .database (project.commands s.host unique)).onOk fun cs =>
        ⟨[.result (CommandFile.render cs)], .ok 0⟩
    else
      (Told.ofLogged .database (project.lookup s.host unique files)).onOk fun found =>
        ⟨.result (CommandFile.render found.commands) :: found.missing.map s.missingWarning,
          .ok (if found.missing.isEmpty then 0 else 1)⟩

/-! ## Updating -/

/-- The line for a step of an update: the verb, right-aligned in twelve
columns, and its object. -/
def eventText (h : Host) : UpdateEvent → String
  | .started name => "Complementing " ++ name
  | .saving file => "      Saving " ++ (h.shorten file).text
  | .finished name => "    Finished " ++ name

/-- What is written for a note of an update. Steps are left out if the run
is quiet. -/
def noteOutput? (h : Host) (quiet : Bool) : UpdateNote → Option Output
  | .event e => if quiet then none else some (.message (eventText h e ++ "\n"))
  | .log line => some (.log line)

/-- Recomputes the complementers of a project. The host is the one that is
left. -/
def updateLayers (s : Session) (quiet : Bool) (db : LayeredDatabase) : Host × Told Nat :=
  let skipping : List Output :=
    if db.complementers.isEmpty && !quiet then
      [.message "    Skipping no complementer configured\n"]
    else []
  let run := db.update s.host
  let outputs := run.notes.filterMap (noteOutput? s.host quiet)
  let result := match run.result.2 with
    | some e => .error (.database e)
    | none => .ok 0
  (run.host, ⟨skipping ++ outputs, result⟩)

/-- Recomputes the complementers. -/
def update (s : Session) (quiet : Bool) : Host × Told Nat :=
  let opened := s.project false
  match opened.value with
  | .error e => (s.host, ⟨opened.notes, .error e⟩)
  | .ok .unconfigured => (s.host, ⟨opened.notes, .error .noBuildDirectory⟩)
  | .ok (.layered db) =>
    let (host, told) := s.updateLayers quiet db
    (host, ⟨opened.notes ++ told.notes, told.value⟩)

/-! ## Scanning and checking -/

/-- A path as it is printed. -/
def shown (s : Session) (p : Path) : String := (p.seenFrom s.directory).text

/-- The files of the project. -/
def projectFiles (s : Session) (roots : List Path) (groups : List FileGroup) :
    Told (List Path) :=
  Told.ofExcept .missingRoot (s.host.projectFiles groups roots)

/-- Prints the files of the project. -/
def scanFiles (s : Session) (roots : List Path) (groups : List FileGroup) : Told Nat :=
  (s.projectFiles roots groups).onOk fun files =>
    ⟨files.map fun p => .result (s.shown p ++ "\n"), .ok 0⟩

/-- The patterns in files of suppressions. -/
def patternsOf (s : Session) : List Path → Except Failure (List String)
  | [] => .ok []
  | f :: fs =>
    match s.host.readText f with
    | .error e => .error (.unreadable f e)
    | .ok text => (s.patternsOf fs).map (Suppressions.patternsIn text ++ ·)

/-- The suppressions given by patterns and by files. -/
def suppressions (s : Session) (patterns : List String) (files : List Path) :
    Except Failure Suppressions := do
  let more ← s.patternsOf files
  (Suppressions.ofPatterns (patterns ++ more)).mapError .suppression

/-- The lines for files that only one side has; none if there are no such
files. -/
def summary (s : Session) (side : String) (files : List Path) : List Output :=
  if files.isEmpty then []
  else
    .result ("Only in " ++ side ++ ":\n") ::
      files.map fun p => .result ("  " ++ s.shown p ++ "\n")

/-- The report of a comparison. -/
def report (s : Session) (c : Coverage) : Told Nat :=
  let databaseOnly := s.summary "compilation database(s)" c.databaseOnly
  if c.isComplete then ⟨databaseOnly, .ok 0⟩
  else
    ⟨databaseOnly ++ s.summary "project(s)" c.projectOnly ++
      [.message "error: some files are missing from the compilation database(s)\n"], .ok 1⟩

/-- Compares the database with the files of the project. The exit code
tells whether files are missing from the database. -/
def check (s : Session) (roots : List Path) (groups : List FileGroup) (patterns : List String)
    (files : List Path) : Told Nat :=
  (Told.ofExcept id (s.suppressions patterns files)).onOk fun suppressions =>
    (s.project true).onOk fun project =>
      (Told.ofExcept .database (project.files s.host true)).onOk fun known =>
        (s.projectFiles roots groups).onOk fun found =>
          let line : LogLine := ⟨.debug, "comparing " ++ toString known.length ++
            " database entries with " ++ toString found.length ++ " project files"⟩
          (Told.tell [.log line]).onOk fun _ =>
            s.report (Coverage.compare known found suppressions)

/-! ## The configuration and the version -/

/-- Prints a line. -/
def printLine (text : String) : Told Nat := ⟨[.result (text ++ "\n")], .ok 0⟩

/-- Answers a question about the configuration. -/
def answerQuery (s : Session) : ConfigQuery → Told Nat
  | .userFile =>
    match s.host.userConfig? with
    | some p => printLine p.text
    | none => .silent (.error .noUserDirectory)
  | .localFile =>
    match s.host.localConfig? s.directory with
    | some p => printLine p.text
    | none => ⟨[.message "error: local configuration not found\n"], .ok 1⟩
  | .keys => ⟨Variable.all.map fun v => .result (v.key ++ "\n"), .ok 0⟩
  | .dump => s.config.onOk fun c => ⟨[.result c.render], .ok 0⟩
  | .get key =>
    s.config.onOk fun c =>
      (Told.ofExcept .config (Variable.ofKey key)).onOk fun v => printLine (c.text v)

/-- The version. -/
def versionNumber : String := "0.1.0"

/-- The line that tells the version. -/
def versionLine (short : Bool) : String :=
  if short then versionNumber else "compdb version " ++ versionNumber

/-- Does a task. -/
def perform (s : Session) (quiet : Bool) : Task → Host × Told Nat
  | .list unique files => (s.host, s.list unique files)
  | .update => s.update quiet
  | .check roots groups patterns files => (s.host, s.check roots groups patterns files)
  | .scanFiles roots groups => (s.host, s.scanFiles roots groups)
  | .config query => (s.host, s.answerQuery query)
  | .version short => (s.host, printLine (versionLine short))

end Session

/-- What a run leaves: the host, what it has written, and its exit code or
its failure. -/
structure RunResult where
  host : Host
  outputs : List Output
  result : Except Failure Nat

/-- Runs an invocation. -/
def Invocation.run (h : Host) (i : Invocation) : RunResult :=
  match i.settings.mapM Override.ofText with
  | .error e => ⟨h, [], .error (.config e)⟩
  | .ok overrides =>
    let session : Session := ⟨h, overrides, h.logicalPath ⟨"."⟩⟩
    let line : LogLine := ⟨.debug, "working directory: " ++ session.directory.text⟩
    let (host, told) := session.perform i.quiet i.task
    ⟨host, .log line :: told.notes, told.value⟩

/-- The least severity of the log lines that an invocation shows. Being
quiet counts more than being verbose. -/
def Invocation.leastSeverity (quiet verbose : Bool) : Severity :=
  if quiet then .error else if verbose then .debug else .warn

end CompileCommands
