import CompileCommands.Command
import CompileCommands.Json.Shape
import CompileCommands.Shell.Words
/-!
# Records of a compilation database file

A compilation database file is a JSON array of records. A record is an
object, or an array of the five fields in order. Each field may be
missing or `null` as far as JSON goes; which fields a record needs is
decided when it is turned into a command, so that the fault can name
the record. A record gives its arguments as a list or, failing that, as
one command line.
-/

namespace CompileCommands

namespace CommandFile

/-- A record as it is written. -/
structure Record where
  directory : Option String
  file : Option String
  arguments : Option (List String)
  command : Option String
  output : Option String

/-- The record without any field. -/
def Record.blank : Record := ⟨none, none, none, none, none⟩

/-- The fields of a record, in the order of a record that is an array. -/
inductive Field where
  | directory
  | file
  | arguments
  | command
  | output
deriving DecidableEq, Repr

/-- The field that a key names. -/
def Field.ofKey? (key : String) : Option Field :=
  if key = "directory" then some .directory
  else if key = "file" then some .file
  else if key = "arguments" then some .arguments
  else if key = "command" then some .command
  else if key = "output" then some .output
  else none

open Json in
/-- Reads the value of a field into a record. -/
def Field.read (r : Record) (bs : List UInt8) : Field → Reading Record
  | directory => (orNull string bs).map fun v => ({ r with directory := v.1 }, v.2)
  | file => (orNull string bs).map fun v => ({ r with file := v.1 }, v.2)
  | arguments => (orNull (array string) bs).map fun v => ({ r with arguments := v.1 }, v.2)
  | command => (orNull string bs).map fun v => ({ r with command := v.1 }, v.2)
  | output => (orNull string bs).map fun v => ({ r with output := v.1 }, v.2)

open Json in
/-- Reads the fields of a record that is an array. All have to be there
and nothing else. -/
def readFields (r : Record) : Bool → List Field → List UInt8 → Reading Record
  | _, [], bs => (closeArray bs).map fun rest => (r, rest)
  | first, f :: fs, bs =>
    match hasItem first bs with
    | .error e => .error e
    | .ok (false, _) => .error .mismatched
    | .ok (true, rest) =>
      match f.read r rest with
      | .error e => .error e
      | .ok (r, rest) => readFields r false fs rest

open Json in
/-- Reads the members of a record that is an object, at most `n` of them.
A field may stand there once; `seen` are those that have been read.
Members that are no fields are passed over. -/
def readMembers : Nat → Record → List Field → Bool → List UInt8 → Reading Record
  | 0, _, _, _, _ => .error .truncated
  | n + 1, r, seen, first, bs =>
    match hasMember first bs with
    | .error e => .error e
    | .ok (false, rest) => (closeObject rest).map fun rest => (r, rest)
    | .ok (true, rest) =>
      match keptString rest with
      | .error e => .error e
      | .ok (key, rest) =>
        match Field.ofKey? key with
        | none =>
          match (colon rest).bind skipValue with
          | .error e => .error e
          | .ok rest => readMembers n r seen false rest
        | some f =>
          if f ∈ seen then .error .mismatched
          else
            match (colon rest).bind fun rest => f.read r rest with
            | .error e => .error e
            | .ok (r, rest) => readMembers n r (f :: seen) false rest

open Json in
/-- Reads a record. -/
def readRecord (bs : List UInt8) : Reading Record :=
  match skipGaps bs with
  | [] => .error .truncated
  | b :: rest =>
    if b = byte '[' then
      readFields .blank true [.directory, .file, .arguments, .command, .output] rest
    else if b = byte '{' then readMembers (rest.length + 1) .blank [] true rest
    else .error (mismatch b rest)

/-- The records of a file. -/
def readRecords (bs : List UInt8) : Except Json.Fault (List Record) :=
  Json.whole (Json.array readRecord) bs

/-- Why a record stands for no command. -/
inductive Gap where
  | directory
  | file
  | words (command : String)
  | arguments
deriving DecidableEq, Repr

/-- The wording of a gap. -/
def Gap.message : Gap → String
  | directory => "missing 'directory'"
  | file => "missing 'file'"
  | words command => "cannot split 'command' into words: " ++ command
  | arguments => "missing 'arguments' or 'command'"

/-- The arguments of a record: the list if there is one, else the words
of the command line. -/
def Record.argumentList (r : Record) : Except Gap (List String) :=
  match r.arguments, r.command with
  | some as, _ => .ok as
  | none, some line =>
    match Shell.words? line with
    | some ws => .ok ws
    | none => .error (.words line)
  | none, none => .error .arguments

/-- The command that a record stands for. -/
def Record.toCommand (r : Record) : Except Gap CompileCommand :=
  match r.directory, r.file with
  | none, _ => .error .directory
  | some _, none => .error .file
  | some d, some f =>
    (r.argumentList).map fun as => ⟨⟨d⟩, ⟨f⟩, as, r.output.map Path.mk⟩

/-- The commands that records stand for. The first record that stands for
none is named by its position. -/
def toCommands : Nat → List Record → Except (Nat × Gap) (List CompileCommand)
  | _, [] => .ok []
  | i, r :: rs =>
    match r.toCommand with
    | .error g => .error (i, g)
    | .ok c => (toCommands (i + 1) rs).map (c :: ·)

end CommandFile

end CompileCommands
