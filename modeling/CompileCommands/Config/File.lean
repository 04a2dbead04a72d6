import CompileCommands.Config.Settings
import CompileCommands.Host.Paths
import CompileCommands.Toml.Document
/-!
# Configuration files

A configuration file is a TOML document with one section. Sections and
variables that are not known are passed over. The section may be written
as a list, in which each value takes its place; and a moment in its place
is read as a section that sets nothing, since nothing in it is known.

There is one configuration file per user, in the configuration directory,
and one per project, in the nearest directory that has one.
-/

namespace CompileCommands

namespace Settings

/-- The texts of a list of nothing else. -/
def texts? : List Toml.Node → Option (List String)
  | [] => some []
  | .scalar (.text s) :: ns => (texts? ns).map (s :: ·)
  | _ :: _ => none

/-- The value of a variable: unset where there is nothing, and otherwise a
list of texts. -/
def variableOf? : Option Toml.Node → Option (Option (List String))
  | none => some none
  | some (.array ns) => (texts? ns).map some
  | some _ => none

/-- The settings of the two variables, if both have proper values. -/
def ofNodes? (buildDirectories complementers : Option Toml.Node) : Option Settings := do
  let b ← variableOf? buildDirectories
  let c ← variableOf? complementers
  some ⟨b, c⟩

/-- The settings of the section. -/
def ofSection? : Toml.Node → Option Settings
  | .table _ es =>
    ofNodes? (Toml.Entries.get? es Variable.buildDirectories.name)
      (Toml.Entries.get? es Variable.complementers.name)
  | .array ns => ofNodes? ns[0]? ns[1]?
  | .scalar .moment => some empty
  | _ => none

/-- The settings of a document. -/
def ofDocument? (es : Toml.Entries) : Option Settings :=
  match Toml.Entries.get? es Variable.sectionName with
  | none => some empty
  | some found => ofSection? found

/-- The settings in the content of the given file. -/
def parse (file : Path) (content : String) : Except ConfigError Settings :=
  match (Toml.document content).bind ofDocument? with
  | some s => .ok s
  | none => .error (.badFile file)

/-- The settings in a file. -/
def load (h : Host) (file : Path) : Except ConfigError Settings :=
  match h.readText file with
  | .error e => .error (.io file e)
  | .ok content => parse file content

end Settings

namespace Host

/-- The directory for the user's configuration: the one that is set, if
it is an absolute path, and otherwise one in the home directory. -/
def configDirectory? (h : Host) : Option Path :=
  match h.configHome.filter fun d => (Path.mk d).isAbsolute with
  | some d => some ⟨d⟩
  | none => (h.home.filter (· ≠ "")).map fun d => (Path.mk d).join ⟨".config"⟩

/-- The user's configuration file, whether or not it exists. -/
def userConfig? (h : Host) : Option Path :=
  h.configDirectory?.map fun d => (d.join ⟨"compdb"⟩).join ⟨"config.toml"⟩

/-- The name of a project's configuration file. -/
def localConfigName : String := ".compdb"

/-- The configuration file of the project that `start` lies in. -/
def localConfig? (h : Host) (start : Path) : Option Path :=
  (h.enclosing? localConfigName start).map fun d => d.join ⟨localConfigName⟩

end Host

end CompileCommands
