import CompileCommands.CommandLine.Invocation
import CompileCommands.Text.Fields
/-!
# Reading arguments

Arguments are read from left to right, first those of the program, and
after the name of a command those of the command. Flags can be bundled
behind one dash; the value of an option is attached to it or follows it;
after `--` everything is an operand. The first fault is the one that
counts, where an argument that is not known comes before a fault in the
values read just before it.
-/

namespace CompileCommands

namespace Arguments

/-- What can be given on a command line. -/
inductive Item where
  | quiet
  | verbose
  | setting
  | unique
  | short
  | groups
  | suppress
  | suppressions
  /-- A file or a directory. -/
  | file
  /-- The key of a variable. -/
  | key
  | help
  | version
deriving DecidableEq, Repr

/-- Whether an item is an option with a value. -/
def Item.takesValue : Item → Bool
  | setting | groups | suppress | suppressions => true
  | _ => false

/-- The values that a written value stands for. -/
def Item.valuesOf (i : Item) (text : String) : List String :=
  match i with
  | groups => (Text.fields (· == ',') text.toList).map String.ofList
  | _ => [text]

/-- The group of the given name. -/
def group? (name : String) : Option FileGroup :=
  if name = "source" then some .source else if name = "header" then some .header else none

/-- Whether an item can have a value. -/
def Item.accepts (i : Item) (text : String) : Bool :=
  match i with
  | groups => (group? text).isSome
  | file | suppressions => text ≠ ""
  | _ => true

/-- How many operands a command takes. -/
inductive Operands where
  | none
  | one (item : Item)
  | many (item : Item)

/-- What may follow the name of the program or of a command. -/
structure Level (κ : Type) where
  /-- The items with one dash. -/
  letters : List (Char × Item)
  /-- The items with two dashes. -/
  words : List (String × Item)
  operands : Operands
  /-- The commands below. -/
  commands : List (String × κ)

namespace Level

variable {κ : Type}

/-- A level with the items that every level has, and some of its own. -/
def withItems (letters : List (Char × Item)) (words : List (String × Item))
    (operands : Operands) (commands : List (String × κ)) : Level κ :=
  { letters := [('q', .quiet), ('v', .verbose), ('h', .help)] ++ letters
    words := [("quiet", .quiet), ("verbose", .verbose), ("help", .help)] ++ words
    operands := operands
    commands := commands }

/-- Whether a name is a command of the level. Where there are commands,
`help` is one of them. -/
def hasCommand (l : Level κ) (name : String) : Bool :=
  !l.commands.isEmpty && (name == "help" || (l.commands.lookup name).isSome)

end Level

/-! ## One level -/

/-- What has been read on a level. -/
structure Scan where
  flags : List Item
  values : List (Item × String)
  /-- An item with values that have not been looked at. -/
  pending : Option (Item × List String)
  /-- Whether the pending item still needs its value. -/
  waiting : Bool
  /-- Whether only operands can follow. -/
  operandsOnly : Bool

namespace Scan

/-- Nothing read. -/
def start : Scan := ⟨[], [], none, false, false⟩

/-- Takes in the values of an item. -/
def take (s : Scan) (i : Item) (texts : List String) : Except Refusal Scan :=
  let values := texts.flatMap i.valuesOf
  if values.isEmpty then .error .invalidValue
  else if values.all i.accepts then
    .ok { s with values := s.values ++ values.map fun v => (i, v) }
  else .error .invalidValue

/-- Takes in the pending values. -/
def settle (s : Scan) : Except Refusal Scan :=
  match s.pending with
  | none => .ok s
  | some (i, texts) => { s with pending := none, waiting := false }.take i texts

/-- Takes in a flag. -/
def flag (s : Scan) (i : Item) : Except Refusal Scan := do
  let s ← s.settle
  if i = .help then .error .help
  else if i = .version then .error .version
  else if i ∈ s.flags then .error .repeatedFlag
  else .ok { s with flags := s.flags ++ [i] }

/-- Takes in an option, with its value if that is attached. -/
def option (s : Scan) (i : Item) (attached : Option String) : Except Refusal Scan := do
  let s ← s.settle
  match attached with
  | some v => s.take i [v]
  | none => .ok { s with pending := some (i, []), waiting := true }

/-- Takes in an argument as the value that an option waits for. -/
def supply (s : Scan) (text : String) : Scan :=
  { s with pending := s.pending.map fun p => (p.1, p.2 ++ [text]), waiting := false }

/-- Whether a flag has been given. -/
def has (s : Scan) (i : Item) : Bool := s.flags.contains i

/-- The values of an item. -/
def valuesFor (s : Scan) (i : Item) : List String :=
  s.values.filterMap fun p => if p.1 = i then some p.2 else none

/-- The items behind one dash. The last of them may be an option, whose
value can follow at once, after an equals sign if need be. -/
def bundle {κ : Type} (l : Level κ) : Scan → List Char → Except Refusal Scan
  | s, [] => .ok s
  | s, c :: cs =>
    match l.letters.lookup c with
    | none => .error .unknownArgument
    | some i =>
      if i.takesValue then
        let attached := if cs.head? = some '=' then cs.tail else cs
        s.option i (if cs.isEmpty then none else some (String.ofList attached))
      else do bundle l (← s.flag i) cs

/-- The item behind two dashes. -/
def word {κ : Type} (l : Level κ) (s : Scan) (cs : List Char) : Except Refusal Scan :=
  let (name, attached) := match Text.cut (· == '=') cs with
    | some (name, v) => (String.ofList name, some (String.ofList v))
    | none => (String.ofList cs, none)
  match l.words.lookup name with
  | none => .error .unknownArgument
  | some i =>
    if i.takesValue then s.option i attached
    else if attached.isSome then .error .unneededValue
    else s.flag i

/-- An argument that is an operand, if the level takes one. -/
def operand {κ : Type} (l : Level κ) (s : Scan) (text : String) : Except Refusal Scan :=
  match l.operands, s.pending with
  | .many i, some (j, texts) =>
    if i = j then .ok { s with pending := some (i, texts ++ [text]) }
    else s.settle.map fun s => { s with pending := some (i, [text]) }
  | .many i, none => .ok { s with pending := some (i, [text]) }
  | .one i, pending =>
    if (pending.any fun p => p.1 = i) || !(s.valuesFor i).isEmpty then .error .unknownArgument
    else s.settle.map fun s => { s with pending := some (i, [text]) }
  | .none, _ =>
    if l.commands.isEmpty then .error .unknownArgument
    else if s.operandsOnly && l.hasCommand text then .error .unknownArgument
    else .error .unknownCommand

/-- An argument that is not the name of a command. -/
def argument {κ : Type} (l : Level κ) (s : Scan) (text : String) : Except Refusal Scan :=
  if s.operandsOnly then s.operand l text
  else
    match text.toList with
    | ['-', '-'] => .ok { s with operandsOnly := true }
    | '-' :: '-' :: cs => s.word l cs
    | '-' :: c :: cs => s.bundle l (c :: cs)
    | _ => if s.waiting then .ok (s.supply text) else s.operand l text

end Scan

/-- How reading a level ended: at the end of the arguments, or at a
command, with the arguments after it. -/
inductive Ending (κ : Type) where
  | finished
  | command (which : κ) (rest : List String)

/-- Reads the arguments of a level. `isTopic` tells which arguments help
can be asked about. -/
def scan {κ : Type} (l : Level κ) (isTopic : List String → Bool) :
    Scan → List String → Except Refusal (Scan × Ending κ)
  | s, [] => s.settle.map fun s => (s, .finished)
  | s, a :: as =>
    if !s.operandsOnly && !s.waiting && l.hasCommand a then
      match l.commands.lookup a with
      | some k => s.settle.map fun s => (s, .command k as)
      | none => .error (if isTopic as then .help else .unknownCommand)
    else
      match s.argument l a with
      | .error e => .error e
      | .ok s => scan l isTopic s as

/-- Reads the arguments of a level that has to lead to a command. -/
def scanToCommand {κ : Type} (l : Level κ) (isTopic : List String → Bool) (args : List String) :
    Except Refusal (Scan × κ × List String) :=
  match scan l isTopic .start args with
  | .error e => .error e
  | .ok (s, .command k rest) => .ok (s, k, rest)
  | .ok (s, .finished) =>
    .error (if s.flags.isEmpty && s.values.isEmpty then .nothingAsked else .missingCommand)

/-- Reads the arguments of a level without commands. -/
def scanToEnd (l : Level Empty) (args : List String) : Except Refusal Scan :=
  (scan l (fun _ => false) .start args).map Prod.fst

/-! ## The levels -/

/-- The commands of the program. -/
inductive Command where
  | list
  | update
  | check
  | scanFiles
  | config
  | version
deriving DecidableEq, Repr

/-- The commands below `config`. -/
inductive ConfigCommand where
  | userFile
  | localFile
  | keys
  | dump
  | get
deriving DecidableEq, Repr

/-- What follows the program's name. -/
def program : Level Command :=
  .withItems [('c', .setting), ('V', .version)] [("version", .version)] .none
    [("list", .list), ("update", .update), ("check", .check), ("scan-files", .scanFiles),
      ("config", .config), ("version", .version)]

/-- What follows `config`. -/
def configLevel : Level ConfigCommand :=
  .withItems [] [] .none
    [("print-user-conf", .userFile), ("print-local-conf", .localFile), ("list", .keys),
      ("dump", .dump), ("get", .get)]

/-- What follows a command without commands below it. -/
def leaf (letters : List (Char × Item)) (words : List (String × Item)) (operands : Operands) :
    Level Empty :=
  .withItems letters words operands []

/-- What follows a command that takes nothing of its own. -/
def bare : Level Empty := leaf [] [] .none

/-- Whether there is help about a command below `config`. -/
def isConfigTopic : List String → Bool
  | [] => true
  | [name] => configLevel.hasCommand name
  | _ => false

/-- Whether there is help about a command. -/
def isTopic : List String → Bool
  | [] => true
  | name :: names =>
    if name = "config" then isConfigTopic names else program.hasCommand name && names.isEmpty

/-! ## Tasks -/

/-- The paths given as operands. -/
def paths (s : Scan) : List Path := (s.valuesFor .file).map Path.mk

/-- The roots given as operands, or the working directory. -/
def roots (s : Scan) : List Path := if (paths s).isEmpty then [⟨"."⟩] else paths s

/-- The groups that are asked for, or all. -/
def groups (s : Scan) : List FileGroup :=
  let given := (s.valuesFor .groups).filterMap group?
  if given.isEmpty then [.source, .header] else given

/-- Reads what follows `config`. -/
def readConfig (args : List String) : Except Refusal (List Scan × Task) := do
  let (s, k, rest) ← scanToCommand configLevel isConfigTopic args
  let level := if k = .get then leaf [] [] (.one .key) else bare
  let t ← scanToEnd level rest
  let query : ConfigQuery ← match k with
    | .userFile => .ok .userFile
    | .localFile => .ok .localFile
    | .keys => .ok .keys
    | .dump => .ok .dump
    | .get =>
      match t.valuesFor .key with
      | [] => .error .missingValue
      | key :: _ => .ok (.get key)
  .ok ([s, t], .config query)

/-- Reads what follows a command. -/
def readTask (k : Command) (args : List String) : Except Refusal (List Scan × Task) :=
  let read (l : Level Empty) (task : Scan → Task) : Except Refusal (List Scan × Task) :=
    (scanToEnd l args).map fun s => ([s], task s)
  match k with
  | .list =>
    read (leaf [('u', .unique)] [("unique", .unique)] (.many .file)) fun s =>
      .list (s.has .unique) (paths s)
  | .update => read bare fun _ => .update
  | .check =>
    read (leaf [('g', .groups)]
      [("groups", .groups), ("suppress", .suppress), ("suppressions", .suppressions)]
      (.many .file)) fun s =>
        .check (roots s) (groups s) (s.valuesFor .suppress)
          ((s.valuesFor .suppressions).map Path.mk)
  | .scanFiles =>
    read (leaf [('g', .groups)] [("groups", .groups)] (.many .file)) fun s =>
      .scanFiles (roots s) (groups s)
  | .config => readConfig args
  | .version => read (leaf [] [("short", .short)] .none) fun s => .version (s.has .short)

end Arguments

/-- The invocation that arguments stand for. -/
def Invocation.ofArguments (args : List String) : Except Refusal Invocation := do
  let (s, k, rest) ← Arguments.scanToCommand Arguments.program Arguments.isTopic args
  let (below, task) ← Arguments.readTask k rest
  let given (i : Arguments.Item) := (s :: below).any fun s => s.has i
  .ok ⟨given .quiet, given .verbose, s.valuesFor .setting, task⟩

end CompileCommands
