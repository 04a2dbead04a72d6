import CompileCommands.Json.Skip
/-!
# Reading JSON of a known shape

Readers for the shapes that a compilation database is made of: a string,
a list, and either of them or `null`. What stands in place of the wanted
shape is itself read as far as needed to tell whether it is JSON at
all.
-/

namespace CompileCommands

namespace Json

/-- The fault of a text that starts with `b` in place of another shape. -/
def mismatch (b : UInt8) (bs : List UInt8) : Fault :=
  let ofRest {α : Type} : Except Fault α → Fault
    | .error e => e
    | .ok _ => .mismatched
  let ofNumber : Reading Numeral → Fault
    | .error e => e
    | .ok (x, _) => if x.isTooLarge then .malformed else .mismatched
  match skipWord? b bs with
  | some r => ofRest r
  | none =>
    if b = byte '"' then ofRest (keptString bs)
    else if b = byte '-' then ofNumber (numeral .truncated bs)
    else if isDigit b then ofNumber (numeral .truncated (b :: bs))
    else if b = byte '[' ∨ b = byte '{' then .mismatched
    else .malformed

/-- Reads a string. -/
def string (bs : List UInt8) : Reading String :=
  match skipGaps bs with
  | [] => .error .truncated
  | b :: rest => if b = byte '"' then keptString rest else .error (mismatch b rest)

/-- Reads `null` or what `item` reads. -/
def orNull {α : Type} (item : List UInt8 → Reading α) (bs : List UInt8) : Reading (Option α) :=
  match skipGaps bs with
  | [] => .error .truncated
  | b :: rest =>
    if b = byte 'n' then
      (expectWord [byte 'u', byte 'l', byte 'l'] rest).map fun r => (none, r)
    else (item (b :: rest)).map fun r => (some r.1, r.2)

/-- Whether another item of an array follows, and the bytes from there
on: at the item, or at the closing bracket. -/
def hasItem (first : Bool) (bs : List UInt8) : Reading Bool :=
  match skipGaps bs with
  | [] => .error .truncated
  | b :: rest =>
    if b = byte ']' then .ok (false, b :: rest)
    else if first then .ok (true, b :: rest)
    else if b = byte ',' then
      match skipGaps rest with
      | [] => .error .truncated
      | c :: rest => if c = byte ']' then .error .malformed else .ok (true, c :: rest)
    else .error .malformed

/-- Reads the end of an array. -/
def closeArray (bs : List UInt8) : Except Fault (List UInt8) :=
  match skipGaps bs with
  | [] => .error .truncated
  | b :: rest => if b = byte ']' then .ok rest else .error .malformed

/-- Reads the items of an array up to its closing bracket, at most `n`
of them. -/
def items {α : Type} (item : List UInt8 → Reading α) :
    Nat → Bool → List UInt8 → Reading (List α)
  | 0, _, _ => .error .truncated
  | n + 1, first, bs =>
    match hasItem first bs with
    | .error e => .error e
    | .ok (false, rest) => (closeArray rest).map fun r => ([], r)
    | .ok (true, rest) =>
      match item rest with
      | .error e => .error e
      | .ok (a, rest) => (items item n false rest).map fun r => (a :: r.1, r.2)

/-- Reads an array of what `item` reads. -/
def array {α : Type} (item : List UInt8 → Reading α) (bs : List UInt8) : Reading (List α) :=
  match skipGaps bs with
  | [] => .error .truncated
  | b :: rest =>
    if b = byte '[' then items item (rest.length + 1) true rest else .error (mismatch b rest)

/-- Whether another member of an object follows, and the bytes from there
on: after the opening quote of its key, or at the closing brace. -/
def hasMember (first : Bool) (bs : List UInt8) : Reading Bool :=
  match skipGaps bs with
  | [] => .error .truncated
  | b :: rest =>
    if b = byte '}' then .ok (false, b :: rest)
    else if first then
      if b = byte '"' then .ok (true, rest) else .error .malformed
    else if b = byte ',' then
      match skipGaps rest with
      | [] => .error .truncated
      | c :: rest => if c = byte '"' then .ok (true, rest) else .error .malformed
    else .error .malformed

/-- Reads the colon between a key and its value. -/
def colon (bs : List UInt8) : Except Fault (List UInt8) :=
  match skipGaps bs with
  | [] => .error .truncated
  | b :: rest => if b = byte ':' then .ok rest else .error .malformed

/-- Reads the end of an object. -/
def closeObject (bs : List UInt8) : Except Fault (List UInt8) :=
  match skipGaps bs with
  | [] => .error .truncated
  | b :: rest => if b = byte '}' then .ok rest else .error .malformed

/-- Reads a whole text: one value and nothing but gaps after it. -/
def whole {α : Type} (value : List UInt8 → Reading α) (bs : List UInt8) : Except Fault α :=
  match value bs with
  | .error e => .error e
  | .ok (a, rest) => if (skipGaps rest).isEmpty then .ok a else .error .malformed

end Json

end CompileCommands
