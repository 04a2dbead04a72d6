/-!
# Strings, words and numbers of JSON

The leaves of JSON, read byte by byte from the front. A reader returns
what it has read and the bytes that follow. The first byte that fits no
text of the wanted kind decides the fault: `malformed` if no JSON text
has it there, `mismatched` if some JSON text of another kind has, and
`truncated` if the bytes have run out.
-/

namespace CompileCommands

namespace Json

/-- Why bytes could not be read. -/
inductive Fault where
  | malformed
  | mismatched
  | truncated
  | unreadable
deriving DecidableEq, Repr

/-- What a reader gives: a value and the bytes after it. -/
abbrev Reading (α : Type) := Except Fault (α × List UInt8)

/-- The byte of an ASCII character. -/
abbrev byte (c : Char) : UInt8 := c.toUInt8

/-- The bytes that may stand between tokens. -/
def isGap (b : UInt8) : Bool :=
  b == byte ' ' || b == byte '\n' || b == byte '\t' || b == byte '\r'

/-- The bytes from the next token on. -/
def skipGaps (bs : List UInt8) : List UInt8 := bs.dropWhile isGap

/-- Reads exactly the bytes of `word`. -/
def expectWord : List UInt8 → List UInt8 → Except Fault (List UInt8)
  | [], bs => .ok bs
  | _ :: _, [] => .error .truncated
  | w :: ws, b :: bs => if b = w then expectWord ws bs else .error .malformed

/-! ## Strings -/

/-- The value of a hexadecimal digit. -/
def hexDigit? (b : UInt8) : Option Nat :=
  let n := b.toNat
  if 0x30 ≤ n ∧ n ≤ 0x39 then some (n - 0x30)
  else if 0x41 ≤ n ∧ n ≤ 0x46 then some (n - 0x41 + 10)
  else if 0x61 ≤ n ∧ n ≤ 0x66 then some (n - 0x61 + 10)
  else none

/-- The number that hexadecimal digits, last first, stand for. -/
def hexNumber? : List UInt8 → Option Nat
  | [] => some 0
  | b :: bs =>
    match hexDigit? b, hexNumber? bs with
    | some d, some n => some (16 * n + d)
    | _, _ => none

/-- What a one-letter escape stands for. -/
def simpleEscape? (b : UInt8) : Option UInt8 :=
  if b = byte '"' ∨ b = byte '\\' ∨ b = byte '/' then some b
  else if b = byte 'b' then some 0x08
  else if b = byte 'f' then some 0x0C
  else if b = byte 'n' then some 0x0A
  else if b = byte 'r' then some 0x0D
  else if b = byte 't' then some 0x09
  else none

/-- Whether a UTF-16 unit is the first half of a surrogate pair. -/
def isHighSurrogate (n : Nat) : Bool := 0xD800 ≤ n && n ≤ 0xDBFF

/-- Whether a UTF-16 unit is the second half of a surrogate pair. -/
def isLowSurrogate (n : Nat) : Bool := 0xDC00 ≤ n && n ≤ 0xDFFF

/-- Where in a string the reader stands. A `high` is the first half of a
surrogate pair whose second half has to follow. -/
inductive StringMode where
  | plain
  | escape
  | digits (high : Option Nat) (sofar : List UInt8)
  | pairEscape (high : Nat)
  | pairDigits (high : Nat)
deriving DecidableEq, Repr

/-- What a byte does to a string: it ends it, or the string goes on in a
mode after some bytes have been added to its value. -/
inductive StringStep where
  | closed
  | more (mode : StringMode) (added : List UInt8)

/-- The bytes of the character with the given code point. -/
def encodePoint (n : Nat) : List UInt8 := String.utf8EncodeChar (Char.ofNat n)

/-- The step that a complete `\u` escape makes. Where values are kept, a
surrogate has to come in a pair; where they are not, any four digits
do. -/
def unitStep (kept : Bool) (high : Option Nat) (n : Nat) : Except Fault StringStep :=
  if !kept then .ok (.more .plain [])
  else
    match high with
    | none =>
      if isLowSurrogate n then .error .malformed
      else if isHighSurrogate n then .ok (.more (.pairEscape n) [])
      else .ok (.more .plain (encodePoint n))
    | some h =>
      if isLowSurrogate n then
        .ok (.more .plain (encodePoint (0x10000 + (h - 0xD800) * 0x400 + (n - 0xDC00))))
      else .error .malformed

/-- One byte further in a string. -/
def StringMode.step (kept : Bool) : StringMode → UInt8 → Except Fault StringStep
  | plain, b =>
    if b = byte '"' then .ok .closed
    else if b = byte '\\' then .ok (.more escape [])
    else if b < 0x20 then .error .malformed
    else .ok (.more plain [b])
  | escape, b =>
    if b = byte 'u' then .ok (.more (digits none []) [])
    else
      match simpleEscape? b with
      | some x => .ok (.more plain [x])
      | none => .error .malformed
  | digits high sofar, b =>
    if sofar.length < 3 then .ok (.more (digits high (b :: sofar)) [])
    else
      match hexNumber? (b :: sofar) with
      | some n => unitStep kept high n
      | none => .error .malformed
  | pairEscape high, b =>
    if b = byte '\\' then .ok (.more (pairDigits high) []) else .error .malformed
  | pairDigits high, b =>
    if b = byte 'u' then .ok (.more (digits (some high) []) []) else .error .malformed

/-- Reads the rest of a string. `value` holds its bytes so far, last
first. -/
def stringFrom (kept : Bool) : StringMode → List UInt8 → List UInt8 → Reading (List UInt8)
  | _, _, [] => .error .truncated
  | mode, value, b :: bs =>
    match mode.step kept b with
    | .error e => .error e
    | .ok .closed => .ok (value.reverse, bs)
    | .ok (.more mode added) => stringFrom kept mode (added.reverse ++ value) bs

/-- Reads a string after its opening quote. Its value has to be UTF-8. -/
def keptString (bs : List UInt8) : Reading String :=
  match stringFrom true .plain [] bs with
  | .error e => .error e
  | .ok (value, rest) =>
    match String.fromUTF8? value.toByteArray with
    | some text => .ok (text, rest)
    | none => .error .malformed

/-- Passes over a string after its opening quote. -/
def skippedString (bs : List UInt8) : Except Fault (List UInt8) :=
  (stringFrom false .plain [] bs).map Prod.snd

/-! ## Numbers -/

/-- Whether a byte is a decimal digit. -/
def isDigit (b : UInt8) : Bool := 0x30 ≤ b && b ≤ 0x39

/-- A number as it is written: the digits before and after the point, and
the exponent. -/
structure Numeral where
  whole : List UInt8
  fraction : List UInt8
  exponentNegative : Bool
  exponent : List UInt8

/-- At least one digit. `short` is the fault of bytes that end before
it. -/
def someDigits (short : Fault) (bs : List UInt8) : Reading (List UInt8) :=
  match bs with
  | [] => .error short
  | b :: _ => if isDigit b then .ok (bs.span isDigit) else .error .malformed

/-- The exponent of a number, if one follows. -/
def exponentPart (short : Fault) (bs : List UInt8) : Reading (Bool × List UInt8) :=
  match bs with
  | e :: rest =>
    if e = byte 'e' ∨ e = byte 'E' then
      let negative := rest.head? = some (byte '-')
      let signed := negative ∨ rest.head? = some (byte '+')
      (someDigits short (if signed then rest.tail else rest)).map
        fun r => ((decide negative, r.1), r.2)
    else .ok ((false, []), bs)
  | [] => .ok ((false, []), [])

/-- The digits after the point of a number, if a point follows. -/
def fractionPart (short : Fault) (bs : List UInt8) : Reading (List UInt8) :=
  match bs with
  | b :: rest => if b = byte '.' then someDigits short rest else .ok ([], bs)
  | [] => .ok ([], [])

/-- The digits before the point. A leading zero stands alone. -/
def wholePart (short : Fault) (bs : List UInt8) : Reading (List UInt8) :=
  match bs with
  | [] => .error short
  | b :: rest =>
    if b = byte '0' then
      if rest.head?.any isDigit then .error .malformed else .ok ([b], rest)
    else someDigits short bs

/-- A number after its sign. -/
def numeral (short : Fault) (bs : List UInt8) : Except Fault (Numeral × List UInt8) := do
  let (whole, rest) ← wholePart short bs
  let (fraction, rest) ← fractionPart short rest
  let ((negative, exponent), rest) ← exponentPart short rest
  .ok (⟨whole, fraction, negative, exponent⟩, rest)

/-- The largest number of the digits that are kept exactly. -/
def significandLimit : Nat := Nat.pow 2 64

/-- `n` with one more decimal digit, if that stays below the limit. -/
def appendDigit? (n : Nat) (b : UInt8) : Option Nat :=
  let m := 10 * n + (b.toNat - 0x30)
  if m < significandLimit then some m else none

/-- The number that the first digits stand for, as long as it stays below
the limit, and the digits that are left. -/
def leadingDigits : Nat → List UInt8 → Nat × List UInt8
  | n, [] => (n, [])
  | n, b :: bs =>
    match appendDigit? n b with
    | some m => leadingDigits m bs
    | none => (n, b :: bs)

/-- The nearest number with 53 significant bits, to even on a tie. -/
def roundTo53 (n : Nat) : Nat :=
  let extra := n.log2 + 1 - 53
  let unit := Nat.pow 2 extra
  let quotient := n / unit
  let twice := 2 * (n % unit)
  let up := unit < twice || (unit == twice && quotient % 2 == 1)
  (if up && 0 < extra then quotient + 1 else quotient) * unit

/-- Whether a written number lies beyond the finite double precision
numbers. -/
def Numeral.isTooLarge (x : Numeral) : Bool :=
  let (n, moreWhole) := leadingDigits 0 x.whole
  let (n, moreFraction) := leadingDigits n x.fraction
  let places : Int := moreWhole.length - ((x.fraction.length - moreFraction.length : Nat) : Int)
  let written : Nat := x.exponent.foldl (fun k b => 10 * k + (b.toNat - 0x30)) 0
  let exponent : Int := if x.exponentNegative then places - written else places + written
  n != 0 && 0 ≤ exponent &&
    (308 < exponent ||
      Nat.pow 2 1024 - Nat.pow 2 970 ≤
        roundTo53 n * roundTo53 (Nat.pow 10 exponent.toNat))

end Json

end CompileCommands
