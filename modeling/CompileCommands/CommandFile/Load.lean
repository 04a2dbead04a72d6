import CompileCommands.Database.Error
import CompileCommands.Host.Basic
/-!
# Loading a compilation database file

The commands of a file, in the order of its records, or the first thing
that is wrong with it: it cannot be opened, it is not the JSON it has to
be, or one of its records stands for no command.
-/

namespace CompileCommands

namespace CommandFile

/-- The commands of a file with the given content. -/
def parse (file : Path) (content : List UInt8) : Except DbError (List CompileCommand) :=
  match readRecords content with
  | .error e => .error (.badJson file e)
  | .ok records =>
    match toCommands 0 records with
    | .error (i, g) => .error (.badRecord file i g)
    | .ok cs => .ok cs

/-- The commands of the file that the path leads to. A directory can be
opened but not read. -/
def load (h : Host) (file : Path) : Except DbError (List CompileCommand) :=
  match h.read file with
  | .ok content => parse file content.toList
  | .error .isDirectory => .error (.badJson file .unreadable)
  | .error e => .error (.io file e)

end CommandFile

end CompileCommands
