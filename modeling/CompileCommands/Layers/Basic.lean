import CompileCommands.Database.Backend
import CompileCommands.Layers.Complementer
/-!
# Layered databases

For every build directory there is a base database, found by a backend,
and one database per complementer. Those of one kind form a layer, and
the layers are asked in order, the base first: a file is looked up in
the first layer that knows it, while the files and the commands of all
layers are listed one after the other.

As for a single database, the answers depend on the host alone, and
`readAll` and `readFor` give the layers as the questions leave them.
-/

namespace CompileCommands

/-- One database per build directory. -/
abbrev Layer := List Database

/-- A stack of layers over build directories. The database of directory
`j` in layer `i` is `layers[i][j]`; layer 0 is the base. -/
structure LayeredDatabase where
  backends : Backends
  complementers : List NamedComplementer
  layers : List Layer
  directories : List Path
  /-- Whether a missing cache file is an error. -/
  strict : Bool

/-- The answers that a source of commands gives at some moment. -/
structure Answers where
  find : Path → Except DbError (List CompileCommand)
  files : Except DbError (List Path)
  commands : Except DbError (List CompileCommand)

/-- The answers of a database. -/
def Database.answers (h : Host) (d : Database) : Answers :=
  ⟨fun p => d.find h p, d.files h, d.commands h⟩

/-- The elements whose key has not been seen before, nor is among
`seen`. -/
def firstOfEach {α : Type} (key : α → Path) : List Path → List α → List α
  | _, [] => []
  | seen, x :: xs =>
    if key x ∈ seen then firstOfEach key seen xs
    else x :: firstOfEach key (key x :: seen) xs

namespace LayeredDatabase

/-- The database without complementers and directories. A missing cache
file is an error. -/
def new (backends : Backends) : LayeredDatabase := ⟨backends, [], [[]], [], true⟩

/-- What every database of the layers holds. -/
def contents (h : Host) (layers : List Layer) : List (List Contents) :=
  layers.map fun l => l.map (·.commands h)

/-! ## Questions -/

/-- The commands for `p` in the first of the layers that has any. -/
def findIn (h : Host) (p : Path) : List Layer → Except DbError (List CompileCommand)
  | [] => .ok []
  | l :: ls =>
    match Database.findAll h p l with
    | .error e => .error e
    | .ok [] => findIn h p ls
    | .ok cs => .ok cs

/-- The commands for `p`, or only the first of them. -/
def find (h : Host) (s : LayeredDatabase) (unique : Bool) (p : Path) :
    Except DbError (List CompileCommand) :=
  (findIn h p s.layers).map fun cs => if unique then cs.take 1 else cs

/-- Every command, or only the first for each file. -/
def commands (h : Host) (s : LayeredDatabase) (unique : Bool) :
    Except DbError (List CompileCommand) :=
  (Database.commandsAll h s.layers.flatten).map fun cs =>
    if unique then firstOfEach CompileCommand.normalizedFile [] cs else cs

/-- Every file, or each only once. A single database that is known to
repeat none is listed as it is. -/
def files (h : Host) (s : LayeredDatabase) (unique : Bool) : Except DbError (List Path) :=
  let distinct :=
    match s.layers.flatten with
    | [d] => d.isUnique
    | _ => false
  (Database.filesAll h s.layers.flatten).map fun fs =>
    if unique && !distinct then firstOfEach id [] fs else fs

/-- The answers of the layers, repeats included. -/
def answers (h : Host) (s : LayeredDatabase) : Answers :=
  ⟨s.find h false, s.files h false, s.commands h false⟩

/-! ## What questions leave behind -/

/-- The layers as a question about all of them leaves them. -/
def readLayers (h : Host) : List Layer → List Layer
  | [] => []
  | l :: ls =>
    match Database.readAll h l with
    | (l, true) => l :: readLayers h ls
    | (l, false) => l :: ls

/-- The layers as the question for the commands of `p` leaves them. -/
def readLayersFor (h : Host) (p : Path) : List Layer → List Layer
  | [] => []
  | l :: ls =>
    let read := (Database.readAll h l).1
    match Database.findAll h p l with
    | .ok [] => read :: readLayersFor h p ls
    | _ => read :: ls

/-- The database as listing its commands or its files leaves it. -/
def readAll (h : Host) (s : LayeredDatabase) : LayeredDatabase :=
  { s with layers := readLayers h s.layers }

/-- The database as looking up `p` leaves it. -/
def readFor (h : Host) (s : LayeredDatabase) (p : Path) : LayeredDatabase :=
  { s with layers := readLayersFor h p s.layers }

/-- The layers after the databases at the chosen places have been
read. -/
def readAt (h : Host) (chosen : Nat → Nat → Bool) (layers : List Layer) : List Layer :=
  layers.mapIdx fun i l => l.mapIdx fun j d => if chosen i j then d.read h else d

end LayeredDatabase

end CompileCommands
