/-!
# Texts of TOML

A text stands between double quotes, where a backslash starts an escape,
or between single quotes, where every character stands for itself. Three
quotes in a row enclose a long text, which may span lines: a line break
right after the opening quotes is left out, and up to two quotes of the
text itself may stand before the closing ones. Reading goes character by
character; the readers expect line breaks to be single line feeds.
-/

namespace CompileCommands

namespace Toml

/-- What a reader gives: a value and the characters after it, or nothing
where the characters are not TOML. -/
abbrev Reading (α : Type) := Option (α × List Char)

/-- Whether a character is a space or a tab. -/
def isSpace (c : Char) : Bool := c == ' ' || c == '\t'

/-- Whether a character may not stand for itself: the control characters,
apart from the tab. -/
def isControl (c : Char) : Bool := (c.toNat < 0x20 && c != '\t') || c.toNat == 0x7F

/-- The value of a hexadecimal digit. -/
def hexDigit? (c : Char) : Option Nat :=
  let n := c.toNat
  if 0x30 ≤ n ∧ n ≤ 0x39 then some (n - 0x30)
  else if 0x41 ≤ n ∧ n ≤ 0x46 then some (n - 0x41 + 10)
  else if 0x61 ≤ n ∧ n ≤ 0x66 then some (n - 0x61 + 10)
  else none

/-- The ways to enclose a text. -/
inductive TextForm where
  | basic
  | literal
  | longBasic
  | longLiteral
deriving DecidableEq, Repr

namespace TextForm

/-- The quote of a form. -/
def mark : TextForm → Char
  | basic | longBasic => '"'
  | literal | longLiteral => '\''

/-- Whether a text of the form may span lines. -/
def isLong : TextForm → Bool
  | basic | literal => false
  | longBasic | longLiteral => true

/-- Whether a backslash starts an escape. -/
def escapes : TextForm → Bool
  | basic | longBasic => true
  | literal | longLiteral => false

/-- What stands on either side of a text. -/
def delimiter (f : TextForm) : List Char := List.replicate (if f.isLong then 3 else 1) f.mark

/-- The end of a text, if it is reached: the quotes that still belong to
the text, and what follows the closing ones. -/
def ending? (f : TextForm) (cs : List Char) : Option (List Char × List Char) :=
  let run := (cs.takeWhile (· == f.mark)).length
  if f.isLong then
    if run < 3 then none
    else
      let inner := min (run - 3) 2
      some (List.replicate inner f.mark, cs.drop (inner + 3))
  else if run = 0 then none
  else some ([], cs.drop 1)

end TextForm

/-- Where in a text the reader stands. -/
inductive TextMode where
  | plain
  | escape
  /-- In an escape by code point: how many digits are left, and the number
  that those before stand for. -/
  | digits (left : Nat) (point : Nat)
  /-- In white space that a backslash leaves out, and whether its line
  break has been read. -/
  | gap (broken : Bool)
deriving DecidableEq, Repr

namespace TextMode

/-- Whether the text may end here. -/
def mayEnd : TextMode → Bool
  | plain => true
  | gap broken => broken
  | _ => false

/-- What a one-letter escape stands for. -/
def simpleEscape? (c : Char) : Option Char :=
  if c = '"' ∨ c = '\\' then some c
  else if c = 'b' then some '\x08'
  else if c = 't' then some '\t'
  else if c = 'n' then some '\n'
  else if c = 'f' then some '\x0C'
  else if c = 'r' then some '\r'
  else none

/-- A character outside escapes. -/
def plainStep (f : TextForm) (c : Char) : Option (TextMode × List Char) :=
  if c = '\\' ∧ f.escapes then some (escape, [])
  else if c = '\n' then if f.isLong then some (plain, [c]) else none
  else if isControl c then none
  else some (plain, [c])

/-- The character after a backslash. -/
def escapeStep (f : TextForm) (c : Char) : Option (TextMode × List Char) :=
  match simpleEscape? c with
  | some x => some (plain, [x])
  | none =>
    if c = 'u' then some (digits 4 0, [])
    else if c = 'U' then some (digits 8 0, [])
    else if f.isLong && isSpace c then some (gap false, [])
    else if f.isLong && c == '\n' then some (gap true, [])
    else none

/-- One more digit of a code point. -/
def digitStep (left point : Nat) (c : Char) : Option (TextMode × List Char) :=
  match hexDigit? c with
  | none => none
  | some d =>
    let n := 16 * point + d
    if 1 < left then some (digits (left - 1) n, [])
    else if n.isValidChar then some (plain, [Char.ofNat n])
    else none

/-- One character further in a text: the new mode and what is added to
the text. -/
def step (f : TextForm) : TextMode → Char → Option (TextMode × List Char)
  | plain, c => plainStep f c
  | escape, c => escapeStep f c
  | digits left point, c => digitStep left point c
  | gap broken, c =>
    if isSpace c then some (gap broken, [])
    else if c = '\n' then some (gap true, [])
    else if broken then plainStep f c
    else none

end TextMode

/-- Reads the rest of a text. -/
def textFrom (f : TextForm) : TextMode → List Char → Reading (List Char)
  | _, [] => none
  | mode, c :: cs =>
    match if mode.mayEnd then f.ending? (c :: cs) else none with
    | some r => some r
    | none =>
      match mode.step f c with
      | none => none
      | some (mode, added) => (textFrom f mode cs).map fun r => (added ++ r.1, r.2)

/-- The characters without a line break in front. -/
def dropBreak : List Char → List Char
  | '\n' :: cs => cs
  | cs => cs

/-- Reads a text of the given form after its opening quotes. -/
def textOf (f : TextForm) (cs : List Char) : Reading String :=
  (textFrom f .plain (if f.isLong then dropBreak cs else cs)).map
    fun r => (String.ofList r.1, r.2)

/-- Reads a text of any form. -/
def text : List Char → Reading String
  | '"' :: '"' :: '"' :: cs => textOf .longBasic cs
  | '\'' :: '\'' :: '\'' :: cs => textOf .longLiteral cs
  | '"' :: cs => textOf .basic cs
  | '\'' :: cs => textOf .literal cs
  | _ => none

end Toml

end CompileCommands
