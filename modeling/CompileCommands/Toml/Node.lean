import CompileCommands.Toml.Scalar
/-!
# The tree of a TOML document

A document is a table. Its parts come into being in four ways, and how a
table was made decides what may still be added to it: a table in braces
is closed; a table under a header is closed once its lines end; a table
made on the way to a header may get a header of its own later; and a
table made by a dotted key may get further dotted keys. A header in double
brackets adds a row to a list of tables, and later headers that pass
through the list go on in its last row.
-/

namespace CompileCommands

namespace Toml

/-- How a table was made. -/
inductive TableKind where
  /-- In braces. -/
  | inline
  /-- Under a header of its own. -/
  | headed
  /-- On the way to another header. -/
  | passed
  /-- By a dotted key. -/
  | dotted
deriving DecidableEq, Repr

/-- A value. Tables keep their keys in the order in which they came. -/
inductive Node where
  | scalar (value : Scalar)
  | array (items : List Node)
  | table (kind : TableKind) (entries : List (String × Node))
  /-- The tables under headers in double brackets. -/
  | rows (tables : List (List (String × Node)))

/-- What a table holds. -/
abbrev Entries := List (String × Node)

namespace Entries

/-- The value of a key. -/
def get? (es : Entries) (key : String) : Option Node :=
  (es.find? fun e => e.1 == key).map Prod.snd

/-- The table in which `key` has the given value. -/
def put (key : String) (v : Node) : Entries → Entries
  | [] => [(key, v)]
  | e :: es => if e.1 = key then (key, v) :: es else e :: put key v es

/-- The rows after a change to the last of them. -/
def changeLast (f : Entries → Option Entries) (rows : List Entries) : Option (List Entries) :=
  match rows.getLast? with
  | some t => (f t).map fun t => rows.dropLast ++ [t]
  | none => none

/-- The table after the key that leads through `path` has been given a
value. A key can be given a value once. The way leads through tables that
dotted keys or headers made in passing, and through last rows; but only a
table that is `open` to keys takes the value itself, which those that
headers made are not. -/
def assign : Bool → List String → Node → Entries → Option Entries
  | _, [], _, _ => none
  | isOpen, [key], v, es =>
    if isOpen && (get? es key).isNone then some (es ++ [(key, v)]) else none
  | _, key :: path, v, es =>
    match get? es key with
    | none => (assign true path v []).map fun t => put key (.table .dotted t) es
    | some (.table .dotted t) =>
      (assign true path v t).map fun t => put key (.table .dotted t) es
    | some (.table .passed t) =>
      (assign false path v t).map fun t => put key (.table .passed t) es
    | some (.rows ts) => (changeLast (assign false path v) ts).map fun ts => put key (.rows ts) es
    | some _ => none

/-- The table after `place` has decided on the value under a header. The
way to it leads through all tables but those in braces, and through last
rows; tables that are missing are made. -/
def placeAt (place : Option Node → Option Node) : List String → Entries → Option Entries
  | [], _ => none
  | [key], es => (place (get? es key)).map fun v => put key v es
  | key :: path, es =>
    match get? es key with
    | none => (placeAt place path []).map fun t => put key (.table .passed t) es
    | some (.table .inline _) => none
    | some (.table kind t) => (placeAt place path t).map fun t => put key (.table kind t) es
    | some (.rows ts) => (changeLast (placeAt place path) ts).map fun ts => put key (.rows ts) es
    | some _ => none

end Entries

/-- A key and its value, as they are written. -/
structure Assignment where
  path : List String
  value : Node

/-- The table after several keys have been given values. -/
def Entries.assignAll (as : List Assignment) (es : Entries) : Option Entries :=
  as.foldlM (fun es a => es.assign true a.path a.value) es

/-- What starts a section of a document. -/
inductive Header where
  /-- A header in brackets. -/
  | table (path : List String)
  /-- A header in double brackets. -/
  | row (path : List String)

/-- A header and the keys below it. -/
structure Section where
  header : Header
  assignments : List Assignment

/-- The value that a section makes of what its header names: a new table,
or the one made in passing, now under a header of its own; or one more
row. -/
def Section.place (s : Section) (existing : Option Node) : Option Node :=
  match s.header, existing with
  | .table _, none => (Entries.assignAll s.assignments []).map (.table .headed)
  | .table _, some (.table .passed t) =>
    (Entries.assignAll s.assignments t).map (.table .headed)
  | .row _, none => (Entries.assignAll s.assignments []).map fun t => .rows [t]
  | .row _, some (.rows ts) =>
    (Entries.assignAll s.assignments []).map fun t => .rows (ts ++ [t])
  | _, some _ => none

/-- The document after one more section. -/
def Entries.addSection (es : Entries) (s : Section) : Option Entries :=
  match s.header with
  | .table path | .row path => es.placeAt s.place path

end Toml

end CompileCommands
