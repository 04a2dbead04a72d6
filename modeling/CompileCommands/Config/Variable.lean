import CompileCommands.FileTree.Follow
/-!
# Configuration variables

The variables that a configuration may set, their keys, and what goes
wrong with keys and with configuration files. A key is a section and a
variable with a point between them.
-/

namespace CompileCommands

/-- Why a configuration cannot be had. -/
inductive ConfigError where
  /-- A configuration file cannot be read. -/
  | io (file : Path) (error : IoError)
  /-- A configuration file is not TOML, or has values of the wrong kind. -/
  | badFile (file : Path)
  /-- A key is not made of a section and a variable. -/
  | invalidKey (key : String)
  /-- A key names no variable. -/
  | unknownKey (key : String)
deriving DecidableEq, Repr

/-- The wording of an error. -/
def ConfigError.message : ConfigError → String
  | io f e => "failed to read " ++ f.text ++ ": " ++ e.message
  | badFile f => "failed to parse " ++ f.text ++ ": invalid configuration"
  | invalidKey k =>
    "invalid key '" ++ k ++ "', should be of the form <section>.<variable>"
  | unknownKey k => "unknown configuration key '" ++ k ++ "'"

/-- What a configuration may set. Each variable is a list of texts. -/
inductive Variable where
  /-- Patterns for the build directories. -/
  | buildDirectories
  /-- The names of the complementers, in the order of their layers. -/
  | complementers
deriving DecidableEq, Repr

namespace Variable

/-- The section that all variables are in. -/
def sectionName : String := "compdb"

/-- The name of a variable in its section. -/
def name : Variable → String
  | buildDirectories => "build_dir"
  | complementers => "complementers"

/-- The key of a variable. -/
def key (v : Variable) : String := sectionName ++ "." ++ v.name

/-- Every variable. -/
def all : List Variable := [buildDirectories, complementers]

/-- The section and the variable of a key, cut at its first point. -/
def splitKey (key : String) : Except ConfigError (String × String) :=
  match Text.cut (· == '.') key.toList with
  | some (c :: s, d :: v) => .ok (String.ofList (c :: s), String.ofList (d :: v))
  | _ => .error (.invalidKey key)

/-- The variable that a key names, if it names one. -/
def ofKey? (key : String) : Option Variable := all.find? fun v => v.key == key

/-- The variable that a key names. -/
def ofKey (key : String) : Except ConfigError Variable :=
  match splitKey key with
  | .error e => .error e
  | .ok _ =>
    match ofKey? key with
    | some v => .ok v
    | none => .error (.unknownKey key)

end Variable

end CompileCommands
