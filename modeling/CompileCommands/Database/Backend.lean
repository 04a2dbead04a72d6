import CompileCommands.Database.Basic
import CompileCommands.Log
/-!
# Backends

A backend recognises the build directories that hold its kind of
database. Backends are kept in the order in which they are tried, and
the first that recognises a directory wins.
-/

namespace CompileCommands

/-- A kind of database that a directory can hold. -/
structure Backend where
  name : String
  recognize : Host → Path → Option Database

/-- Directories with a `compile_commands.json`. -/
def Backend.json : Backend := ⟨"json", Database.ofDirectory?⟩

/-- The backends, in the order in which they are tried. -/
abbrev Backends := List Backend

namespace Backends

/-- The backends with one more at the end, unless its name is taken. -/
def register (bs : Backends) (b : Backend) : Backends :=
  if bs.any fun x => x.name == b.name then bs else bs ++ [b]

/-- The backends that come with the library. -/
def builtin : Backends := register [] Backend.json

/-- The first backend that recognises the directory, with the database
that it finds. -/
def recognized? (h : Host) (directory : Path) : Backends → Option (Backend × Database)
  | [] => none
  | b :: bs =>
    match b.recognize h directory with
    | some d => some (b, d)
    | none => recognized? h directory bs

/-- The database of a directory. -/
def probe (h : Host) (bs : Backends) (directory : Path) : Logged (Except DbError Database) :=
  match bs.recognized? h directory with
  | some (b, d) =>
    ⟨[⟨.debug, directory.text ++ ": found " ++ b.name ++ " compilation database"⟩], .ok d⟩
  | none => .silent (.error (.noDatabase directory))

end Backends

end CompileCommands
