import CompileCommands.Toml.Node
/-!
# Reading TOML documents

A document is read line by line: keys with their values, headers, and
nothing but comments. Line breaks are unified first, so that a carriage
return which is still there has no place anywhere. Keys have fewer than
80 parts, and values are nested less than 80 deep.
-/

namespace CompileCommands

namespace Toml

/-- The characters with each line break as a single line feed. -/
def unifyBreaks : List Char → List Char
  | '\r' :: '\n' :: cs => '\n' :: unifyBreaks cs
  | c :: cs => c :: unifyBreaks cs
  | [] => []

/-! ## Between values -/

/-- The characters from the next one that is neither space nor tab. -/
def skipSpaces (cs : List Char) : List Char := cs.dropWhile isSpace

/-- The characters after a comment, if one stands in front. -/
def skipComment : List Char → List Char
  | '#' :: cs => cs.dropWhile fun c => !isControl c
  | cs => cs

/-- The characters after the rest of a line, which may hold a comment. -/
def lineEnd (cs : List Char) : Option (List Char) :=
  match skipComment (skipSpaces cs) with
  | [] => some []
  | '\n' :: rest => some rest
  | _ => none

/-- The characters after spaces, comments and line breaks, of which there
are at most `n`. -/
def skipLines : Nat → List Char → List Char
  | 0, cs => cs
  | n + 1, cs =>
    match skipComment (skipSpaces cs) with
    | '\n' :: rest => skipLines n rest
    | rest => rest

/-- The characters after everything that may stand between the items of
an array. -/
def skipGaps (cs : List Char) : List Char := skipLines (cs.length + 1) cs

/-! ## Keys -/

/-- A character of a key without quotes. -/
def isKeyChar (c : Char) : Bool :=
  ('A' ≤ c && c ≤ 'Z') || ('a' ≤ c && c ≤ 'z') || ('0' ≤ c && c ≤ '9') || c == '_' || c == '-'

/-- One part of a key. -/
def keyPart : List Char → Reading String
  | '"' :: cs => textOf .basic cs
  | '\'' :: cs => textOf .literal cs
  | cs =>
    let (name, rest) := cs.span isKeyChar
    if name.isEmpty then none else some (String.ofList name, rest)

/-- The parts of a key, at most `n` of them, with the spaces around
them. -/
def keyParts : Nat → List Char → Reading (List String)
  | 0, _ => none
  | n + 1, cs =>
    match keyPart (skipSpaces cs) with
    | none => none
    | some (part, rest) =>
      match skipSpaces rest with
      | '.' :: rest => (keyParts n rest).map fun r => (part :: r.1, r.2)
      | rest => some ([part], rest)

/-- The number of parts that no key has. -/
def partLimit : Nat := 80

/-- A key. -/
def key (cs : List Char) : Reading (List String) := keyParts (partLimit - 1) cs

/-- A key with its value. -/
def assignment (value : List Char → Reading Node) (cs : List Char) : Reading Assignment :=
  match key cs with
  | some (path, '=' :: rest) => (value (skipSpaces rest)).map fun r => (⟨path, r.1⟩, r.2)
  | _ => none

/-! ## Values -/

/-- The items of an array up to its closing bracket, at most `n` of
them. A comma may follow the last one. -/
def items (value : List Char → Reading Node) : Nat → List Char → Reading (List Node)
  | 0, _ => none
  | n + 1, cs =>
    match skipGaps cs with
    | ']' :: rest => some ([], rest)
    | cs =>
      match value cs with
      | none => none
      | some (v, rest) =>
        match skipGaps rest with
        | ',' :: rest => (items value n rest).map fun r => (v :: r.1, r.2)
        | ']' :: rest => some ([v], rest)
        | _ => none

/-- The members of a table in braces up to its closing brace, at most `n`
of them. -/
def members (value : List Char → Reading Node) : Nat → List Char → Reading (List Assignment)
  | 0, _ => none
  | n + 1, cs =>
    match assignment value cs with
    | none => none
    | some (a, rest) =>
      match skipSpaces rest with
      | ',' :: rest => (members value n rest).map fun r => (a :: r.1, r.2)
      | '\x7d' :: rest => some ([a], rest)
      | _ => none

/-- An array after its opening bracket. -/
def array (value : List Char → Reading Node) (cs : List Char) : Reading Node :=
  (items value (cs.length + 1) cs).map fun r => (.array r.1, r.2)

/-- A table after its opening brace. -/
def inlineTable (value : List Char → Reading Node) (cs : List Char) : Reading Node :=
  match skipSpaces cs with
  | '\x7d' :: rest => some (.table .inline [], rest)
  | cs =>
    match members value (cs.length + 1) cs with
    | none => none
    | some (as, rest) => (Entries.assignAll as []).map fun t => (.table .inline t, rest)

/-- A value that is nested less than `n` deep. -/
def valueWithin : Nat → List Char → Reading Node
  | 0, _ => none
  | 1, cs => (scalar cs).map fun r => (.scalar r.1, r.2)
  | n + 2, '[' :: cs => array (valueWithin (n + 1)) cs
  | n + 2, '\x7b' :: cs => inlineTable (valueWithin (n + 1)) cs
  | _ + 2, cs => (scalar cs).map fun r => (.scalar r.1, r.2)

/-- The depth to which no value is nested. -/
def depthLimit : Nat := 80

/-- A value. -/
def value (cs : List Char) : Reading Node := valueWithin depthLimit cs

/-! ## Lines -/

/-- What a line says. -/
inductive Line where
  | blank
  | assignment (a : Assignment)
  | header (h : Header)

/-- A header after its opening bracket. -/
def header : List Char → Reading Header
  | '[' :: cs =>
    match key cs with
    | some (path, ']' :: ']' :: rest) => some (.row path, rest)
    | _ => none
  | cs =>
    match key cs with
    | some (path, ']' :: rest) => some (.table path, rest)
    | _ => none

/-- What the line in front says, and what follows on it. -/
def lineContent (cs : List Char) : Reading Line :=
  match skipSpaces cs with
  | [] => some (.blank, [])
  | '#' :: cs => some (.blank, '#' :: cs)
  | '\n' :: cs => some (.blank, '\n' :: cs)
  | '[' :: cs => (header cs).map fun r => (.header r.1, r.2)
  | cs => (assignment value cs).map fun r => (.assignment r.1, r.2)

/-- The lines of a document, at most `n` of them. -/
def lines : Nat → List Char → Option (List Line)
  | _, [] => some []
  | 0, _ => none
  | n + 1, cs =>
    match lineContent cs with
    | none => none
    | some (l, rest) =>
      match lineEnd rest with
      | none => none
      | some rest => (lines n rest).map (l :: ·)

/-- The keys before the first header, and the sections. -/
def sections : List Line → List Assignment × List Section
  | [] => ([], [])
  | .blank :: ls => sections ls
  | .assignment a :: ls =>
    let (own, rest) := sections ls
    (a :: own, rest)
  | .header h :: ls =>
    let (own, rest) := sections ls
    ([], ⟨h, own⟩ :: rest)

/-- The table that lines describe. -/
def ofLines (ls : List Line) : Option Entries :=
  let (top, rest) := sections ls
  match Entries.assignAll top [] with
  | none => none
  | some es => rest.foldlM Entries.addSection es

/-- The table that a document describes. A byte order mark in front is
left out. -/
def document (content : String) : Option Entries :=
  let cs := match content.toList with
    | '\ufeff' :: cs => cs
    | cs => cs
  let cs := unifyBreaks cs
  (lines cs.length cs).bind ofLines

end Toml

end CompileCommands
