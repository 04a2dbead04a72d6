import CompileCommands.Config.Basic
import CompileCommands.Headers.Inference
import CompileCommands.Layers.Registration
import CompileCommands.Project.Failure
/-!
# Projects

The database that a configuration describes. Without build directories it
is empty, which is no error.
-/

namespace CompileCommands

/-- The database of a project. -/
inductive Project where
  | unconfigured
  | layered (database : LayeredDatabase)

namespace Project

/-- The complementer of the given name. -/
def complementer? (name : String) : Option Complementer :=
  if name = "headerdb" then some .headers else none

/-- The database with the complementers of the given names. -/
def addComplementers : List String → LayeredDatabase → Except Failure LayeredDatabase
  | [], s => .ok s
  | n :: ns, s =>
    match complementer? n with
    | none => .error (.unknownComplementer n)
    | some c =>
      match s.addComplementer n c with
      | .error e => .error (.database e)
      | .ok s => addComplementers ns s

/-- What is logged when the database is open. -/
def openedLine (s : LayeredDatabase) : LogLine :=
  let names := List.intercalate [',', ' '] (s.complementers.map fun c => c.name.toList)
  ⟨.debug, "opened " ++ toString s.directories.length ++
    " build directories with complementers [" ++ String.ofList names ++ "]"⟩

/-- The layered database of a configuration. -/
def openLayers (h : Host) (c : Config) (strict : Bool) :
    Logged (Except Failure LayeredDatabase) :=
  let start := { LayeredDatabase.new Backends.builtin with strict := strict }
  match addComplementers c.complementers start with
  | .error e => .silent (.error e)
  | .ok s =>
    (s.addPatterns h c.buildDirectories).andThen fun r =>
      match r with
      | .error e => .silent (.error (.database e))
      | .ok s => ⟨[openedLine s], .ok s⟩

/-- The project of a configuration. If it is strict, every build directory
needs the cache files of all complementers. -/
def ofConfig (h : Host) (c : Config) (strict : Bool) : Logged (Except Failure Project) :=
  if c.buildDirectories.isEmpty then
    ⟨[⟨.debug, "no build directory configured"⟩], .ok unconfigured⟩
  else (openLayers h c strict).onOk fun s => .silent (.ok (layered s))

/-- The commands for a file, or only the first of them. -/
def find (h : Host) (unique : Bool) : Project → Path → Except DbError (List CompileCommand)
  | unconfigured, _ => .ok []
  | layered s, p => s.find h unique p

/-- Every file, or each only once. -/
def files (h : Host) (unique : Bool) : Project → Except DbError (List Path)
  | unconfigured => .ok []
  | layered s => s.files h unique

/-- Every command, or only the first for each file. -/
def commands (h : Host) (unique : Bool) : Project → Except DbError (List CompileCommand)
  | unconfigured => .ok []
  | layered s => s.commands h unique

/-- The answers of the project's database, repeats included. -/
def answers (h : Host) : Project → Answers
  | unconfigured => Database.null.answers h
  | layered s => s.answers h

end Project

end CompileCommands
