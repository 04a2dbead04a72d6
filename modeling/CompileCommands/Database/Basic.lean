import CompileCommands.CommandFile.Load
import CompileCommands.Host.Paths
/-!
# Databases

A database answers three questions: which commands compile a file, which
files it knows, and which commands it holds. It is empty, held in
memory, kept in a file, or put together from others.

A file is read when it is first needed, and what it then held is kept: a
question is answered from what is kept, or else from the file as it is
at the time. Answering and keeping are two functions. The answers
(`commands`, `files`, `find`) depend on the host alone, and `read` gives
the database as any question leaves it. A reading that fails keeps
nothing.
-/

namespace CompileCommands

/-- A source of compile commands. -/
inductive Database where
  /-- Nothing. -/
  | null
  /-- The given commands. -/
  | memory (held : List CompileCommand)
  /-- The commands of a file, and what it held when it was read. -/
  | json (file : Path) (kept : Option (List CompileCommand))
  /-- The given databases, one after the other. -/
  | aggregate (parts : List Database)

namespace Database

/-- What a file database holds. -/
def fileCommands (h : Host) (file : Path) :
    Option (List CompileCommand) → Except DbError (List CompileCommand)
  | some held => .ok held
  | none => CommandFile.load h file

/-- The commands that compile the canonical path `target`. -/
def matching (target : Path) (cs : List CompileCommand) : List CompileCommand :=
  cs.filter fun c => c.normalizedFile == target

/-- Both answers, one after the other, or the first failure. -/
def chain {α : Type} (a b : Except DbError (List α)) : Except DbError (List α) :=
  match a with
  | .error e => .error e
  | .ok xs => b.map (xs ++ ·)

mutual

/-- Every command. -/
def commands (h : Host) : Database → Except DbError (List CompileCommand)
  | null => .ok []
  | memory held => .ok held
  | json file kept => fileCommands h file kept
  | aggregate parts => commandsAll h parts

/-- Every command of several databases. -/
def commandsAll (h : Host) : List Database → Except DbError (List CompileCommand)
  | [] => .ok []
  | d :: ds => chain (d.commands h) (commandsAll h ds)

end

mutual

/-- The canonical path of every command's file. -/
def files (h : Host) : Database → Except DbError (List Path)
  | null => .ok []
  | memory held => .ok (held.map CompileCommand.normalizedFile)
  | json file kept => (fileCommands h file kept).map (·.map CompileCommand.normalizedFile)
  | aggregate parts => filesAll h parts

/-- The files of several databases. -/
def filesAll (h : Host) : List Database → Except DbError (List Path)
  | [] => .ok []
  | d :: ds => chain (d.files h) (filesAll h ds)

end

mutual

/-- The commands that compile `p`. A file database takes the path as the
user sees it, through the logical working directory. -/
def find (h : Host) (p : Path) : Database → Except DbError (List CompileCommand)
  | null => .ok []
  | memory held => .ok (matching (h.absolutePath p) held)
  | json file kept => (fileCommands h file kept).map (matching (h.logicalPath p))
  | aggregate parts => findAll h p parts

/-- The commands of several databases that compile `p`. -/
def findAll (h : Host) (p : Path) : List Database → Except DbError (List CompileCommand)
  | [] => .ok []
  | d :: ds => chain (d.find h p) (findAll h p ds)

end

mutual

/-- The database as a question leaves it, and whether the question could
be answered. Parts after one that cannot be read are not looked at. -/
def readThrough (h : Host) : Database → Database × Bool
  | null => (null, true)
  | memory held => (memory held, true)
  | json file (some held) => (json file (some held), true)
  | json file none =>
    match CommandFile.load h file with
    | .ok held => (json file (some held), true)
    | .error _ => (json file none, false)
  | aggregate parts =>
    let (parts, read) := readAll h parts
    (aggregate parts, read)

/-- Several databases as a question leaves them. -/
def readAll (h : Host) : List Database → List Database × Bool
  | [] => ([], true)
  | d :: ds =>
    match readThrough h d with
    | (d, false) => (d :: ds, false)
    | (d, true) =>
      let (ds, read) := readAll h ds
      (d :: ds, read)

end

/-- The database as a question leaves it. -/
def read (h : Host) (d : Database) : Database := (d.readThrough h).1

/-- Whether the files are known to be listed without repeats. -/
def isUnique : Database → Bool
  | null => true
  | _ => false

/-- Whether a directory's database file exists, and the database in
it. -/
def ofDirectory? (h : Host) (directory : Path) : Option Database :=
  let file := directory.join ⟨"compile_commands.json"⟩
  if h.pathExists file then some (json file none) else none

end Database

end CompileCommands
