import CompileCommands.Config.File
import CompileCommands.Log
import CompileCommands.Toml.Quoted
/-!
# Configurations

A configuration is put together from sources: the user's file, the
project's file, and the overrides of the command line. A variable has the
value that the last source which sets it gives it. Patterns for build
directories are taken as seen from the directory of the source that gives
them.
-/

namespace CompileCommands

/-- A source of a configuration: what it sets, the directory its patterns
are seen from, and the file it was read from, if it is a file. -/
structure ConfigSource where
  settings : Settings
  directory : Path
  file : Option Path
deriving DecidableEq, Repr

namespace ConfigSource

/-- The source that a file is. -/
def ofFile (h : Host) (file : Path) : Except ConfigError ConfigSource :=
  let file := h.absolutePath file
  (Settings.load h file).map fun s => ⟨s, file.parent?.getD .empty, some file⟩

/-- The source that overrides are. -/
def ofOverrides (os : List Override) (directory : Path) : ConfigSource :=
  ⟨Settings.ofOverrides os, directory, none⟩

/-- A pattern as seen from a directory. -/
def resolve (directory : Path) (pattern : String) : String :=
  (directory.join ⟨pattern⟩).normalize.text

/-- The value that a source gives to a variable. -/
def value? (s : ConfigSource) (v : Variable) : Option (List String) :=
  (s.settings.get? v).map fun items =>
    match v with
    | .buildDirectories => items.map (resolve s.directory)
    | .complementers => items

/-- What is logged when a source is applied. -/
def logLine (s : ConfigSource) : LogLine :=
  ⟨.debug, "applying configuration from " ++ (s.file.map Path.text).getD "command line"⟩

end ConfigSource

/-- The effective values of the variables, and the files they come from,
in the order in which they were read. -/
structure Config where
  buildDirectories : List String
  complementers : List String
  files : List Path
deriving DecidableEq, Repr

namespace Config

/-- The configuration in which nothing is set. -/
def empty : Config := ⟨[], [], []⟩

/-- The value of a variable. -/
def get (c : Config) : Variable → List String
  | .buildDirectories => c.buildDirectories
  | .complementers => c.complementers

/-- The configuration after one more source. -/
def apply (c : Config) (s : ConfigSource) : Config :=
  { buildDirectories := (s.value? .buildDirectories).getD c.buildDirectories
    complementers := (s.value? .complementers).getD c.complementers
    files := c.files ++ s.file.toList }

theorem get_apply (c : Config) (s : ConfigSource) (v : Variable) :
    (c.apply s).get v = (s.value? v).getD (c.get v) := by
  cases v <;> rfl

/-- The configuration made of sources, the least important first. -/
def ofSources (ss : List ConfigSource) : Config := ss.foldl apply empty

/-- The sources of a run: the user's file if it exists, the file of the
project that `directory` lies in if there is one, and the overrides if
there are any. -/
def sources (h : Host) (os : List Override) (directory : Path) :
    Except ConfigError (List ConfigSource) := do
  let user ← (h.userConfig?.filter h.isFile).toList.mapM (ConfigSource.ofFile h)
  let project ← (h.localConfig? directory).toList.mapM (ConfigSource.ofFile h)
  let line := if os.isEmpty then [] else [ConfigSource.ofOverrides os directory]
  .ok (user ++ project ++ line)

/-- The configuration of a run. -/
def load (h : Host) (os : List Override) (directory : Path) :
    Logged (Except ConfigError Config) :=
  match sources h os directory with
  | .error e => .silent (.error e)
  | .ok ss => ⟨ss.map ConfigSource.logLine, .ok (ofSources ss)⟩

/-- The value of a variable as a list with commas. -/
def text (c : Config) (v : Variable) : String :=
  String.ofList (List.intercalate [','] ((c.get v).map String.toList))

/-- The line of a configuration file that sets a variable. -/
def line (c : Config) (v : Variable) : List Char :=
  v.name.toList ++ [' ', '=', ' ', '['] ++
    List.intercalate [',', ' '] ((c.get v).map Toml.quoted) ++ [']', '\n']

/-- The configuration as a configuration file. -/
def render (c : Config) : String :=
  String.ofList (['['] ++ Variable.sectionName.toList ++ [']', '\n'] ++
    Variable.all.flatMap c.line)

end Config

end CompileCommands
