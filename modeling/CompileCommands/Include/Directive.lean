import CompileCommands.Text.Fields
/-!
# Include directives

The `#include` lines of a source file, read byte by byte, whatever the
conditional compilation around them says. A directive is a line of `#`,
`include` and, after at least one blank, a name between delimiters;
blanks may stand before and after the `#`. The name has at least one
byte and ends before the first `"` or `>` after that, whichever
delimiter opened it.
-/

namespace CompileCommands

/-- How an included file is named. -/
inductive Delimiter where
  | quoted
  | angled
deriving DecidableEq, Repr

/-- One include directive. -/
structure Include where
  delimiter : Delimiter
  name : String
deriving DecidableEq, Repr

namespace Include

/-- The directive's name as it is written. -/
def display (i : Include) : String :=
  match i.delimiter with
  | .quoted => "\"" ++ i.name ++ "\""
  | .angled => "<" ++ i.name ++ ">"

/-- The bytes that may stand around `#` and before a name. -/
def isGap (b : UInt8) : Bool := b == 0x20 || (0x09 ≤ b && b ≤ 0x0D)

/-- The bytes that end a name. -/
def isCloser (b : UInt8) : Bool := b == 0x22 || b == 0x3E

/-- The bytes of `include`. -/
def keyword : List UInt8 := [0x69, 0x6E, 0x63, 0x6C, 0x75, 0x64, 0x65]

/-- What follows a beginning of the bytes. -/
def after? (start bs : List UInt8) : Option (List UInt8) :=
  if start.isPrefixOf bs then some (bs.drop start.length) else none

/-- The name that the bytes after an opening delimiter start with. -/
def name? : List UInt8 → Option (List UInt8)
  | [] => none
  | b :: bs => (Text.cut isCloser bs).map fun p => b :: p.1

/-- A name as text: UTF-8, or else a character per byte. -/
def decodeName (bs : List UInt8) : String :=
  (String.fromUTF8? bs.toByteArray).getD (String.ofList (bs.map fun b => Char.ofNat b.toNat))

/-- The directive that a line holds. -/
def ofLine? (line : List UInt8) : Option Include := do
  let rest ← after? [0x23] (line.dropWhile isGap)
  let rest ← after? keyword (rest.dropWhile isGap)
  if rest.head?.any isGap then
    match rest.dropWhile isGap with
    | [] => none
    | opener :: rest =>
      let delimiter ←
        if opener = 0x22 then some Delimiter.quoted
        else if opener = 0x3C then some Delimiter.angled
        else none
      let name ← name? rest
      some ⟨delimiter, decodeName name⟩
  else none

/-- The directives of a file with the given content, in its order. -/
def ofContent (content : List UInt8) : List Include :=
  (Text.fields (· == 0x0A) content).filterMap ofLine?

end Include

end CompileCommands
