import CompileCommands.Toml.Text
/-!
# Numbers, dates and truth values of TOML

The values that are neither texts nor made of other values. Digits may be
set apart by single underscores. An integer has 64 bits; a number with a
fraction or an exponent may not be so large that it rounds to infinity. A
moment is a date, a time of day, or both with an optional offset. Of
numbers with a fraction and of moments only the kind is kept.
-/

namespace CompileCommands

namespace Toml

/-- A value without parts. -/
inductive Scalar where
  | text (value : String)
  | integer (value : Int)
  | float
  | boolean (value : Bool)
  | moment
deriving DecidableEq, Repr

/-- The characters after `word`, if it stands in front. -/
def afterWord? : List Char → List Char → Option (List Char)
  | [], cs => some cs
  | w :: ws, c :: cs => if c = w then afterWord? ws cs else none
  | _ :: _, [] => none

/-! ## Digits -/

/-- The value of a digit in the given base. -/
def digit? (base : Nat) (c : Char) : Option Nat := (hexDigit? c).filter (· < base)

/-- Whether a character is a digit in the given base. -/
def isDigit (base : Nat) (c : Char) : Bool := (digit? base c).isSome

/-- The digits in front, without the underscores between them. -/
def moreDigits (base : Nat) : List Char → List Char × List Char
  | [] => ([], [])
  | c :: cs =>
    if isDigit base c then
      let (ds, rest) := moreDigits base cs
      (c :: ds, rest)
    else if c = '_' && cs.head?.any (isDigit base) then moreDigits base cs
    else ([], c :: cs)

/-- One digit or more. -/
def someDigits (base : Nat) : List Char → Reading (List Char)
  | [] => none
  | c :: cs => if isDigit base c then some (moreDigits base (c :: cs)) else none

/-- Exactly `n` decimal digits. -/
def exactDigits : Nat → List Char → Reading (List Char)
  | 0, cs => some ([], cs)
  | _ + 1, [] => none
  | n + 1, c :: cs =>
    if isDigit 10 c then (exactDigits n cs).map fun r => (c :: r.1, r.2) else none

/-- The number that digits stand for. -/
def numberOf (base : Nat) (ds : List Char) : Nat :=
  ds.foldl (fun n c => base * n + (digit? base c).getD 0) 0

/-! ## Numbers -/

/-- A sign, if one stands in front: whether it is a minus. -/
def sign : List Char → Bool × List Char
  | '-' :: cs => (true, cs)
  | '+' :: cs => (false, cs)
  | cs => (false, cs)

/-- The digits before the point. A zero in front stands alone. -/
def wholePart : List Char → Reading (List Char)
  | '0' :: cs => some (['0'], cs)
  | cs => someDigits 10 cs

/-- An exponent: whether it is negative, and its digits. -/
def exponentPart : List Char → Reading (Bool × List Char)
  | [] => none
  | c :: cs =>
    if c = 'e' ∨ c = 'E' then
      let (negative, cs) := sign cs
      (someDigits 10 cs).map fun r => ((negative, r.1), r.2)
    else none

/-- The digits after the point. -/
def fractionPart : List Char → Reading (List Char)
  | '.' :: cs => someDigits 10 cs
  | _ => none

/-- The least number that rounds to infinity in double precision. -/
def floatBound : Nat := Nat.pow 2 1024 - Nat.pow 2 970

/-- Whether `digits` times ten to the power of `exponent` reaches the
bound. Powers far from the bound are not computed. -/
def reachesBound (digits : List Char) (exponent : Int) : Bool :=
  let n := numberOf 10 digits
  let magnitude : Int := (Nat.toDigits 10 n).length + exponent
  if n = 0 ∨ magnitude < 300 then false
  else if 400 < magnitude then true
  else if 0 ≤ exponent then decide (floatBound ≤ n * Nat.pow 10 exponent.toNat)
  else decide (floatBound * Nat.pow 10 (-exponent).toNat ≤ n)

/-- A number with a fraction, an exponent, or both. -/
def float (cs : List Char) : Option (Scalar × List Char) := do
  let (negative, cs) := sign cs
  let (whole, cs) ← wholePart cs
  let (fraction, cs, written) := match fractionPart cs with
    | some (ds, cs) => (ds, cs, true)
    | none => ([], cs, false)
  let ((down, power), cs, written) := match exponentPart cs with
    | some (e, cs) => (e, cs, true)
    | none => ((false, []), cs, written)
  let shift : Int := numberOf 10 power
  let exponent := (if down then -shift else shift) - fraction.length
  if written && (negative || !reachesBound (whole ++ fraction) exponent) then some (.float, cs)
  else none

/-- A number that is infinite or none. -/
def specialFloat (cs : List Char) : Reading Scalar :=
  let cs := (sign cs).2
  match afterWord? ['i', 'n', 'f'] cs with
  | some rest => some (.float, rest)
  | none => (afterWord? ['n', 'a', 'n'] cs).map fun rest => (.float, rest)

/-- The integer with the given sign and size, if it has 64 bits. -/
def integerOf (negative : Bool) (size : Nat) : Option Scalar :=
  if negative then if size ≤ Nat.pow 2 63 then some (.integer (-size)) else none
  else if size < Nat.pow 2 63 then some (.integer size)
  else none

/-- An integer, in base 16, 8 or 2 if it says so. -/
def integer : List Char → Option (Scalar × List Char)
  | '0' :: 'x' :: cs => inBase 16 cs
  | '0' :: 'o' :: cs => inBase 8 cs
  | '0' :: 'b' :: cs => inBase 2 cs
  | cs => do
    let (negative, cs) := sign cs
    let (ds, cs) ← wholePart cs
    let n ← integerOf negative (numberOf 10 ds)
    some (n, cs)
where
  /-- An integer whose base has been read. -/
  inBase (base : Nat) (cs : List Char) : Option (Scalar × List Char) := do
    let (ds, cs) ← someDigits base cs
    let n ← integerOf false (numberOf base ds)
    some (n, cs)

/-! ## Moments -/

/-- A number of `n` decimal digits from `low` to `high`. -/
def numberWithin (n low high : Nat) (cs : List Char) : Reading Nat :=
  match exactDigits n cs with
  | none => none
  | some (ds, rest) =>
    let x := numberOf 10 ds
    if low ≤ x ∧ x ≤ high then some (x, rest) else none

/-- Whether a year has a 29th of February. -/
def isLeapYear (year : Nat) : Bool := year % 4 == 0 && (year % 100 != 0 || year % 400 == 0)

/-- The number of days of a month. -/
def daysIn (year month : Nat) : Nat :=
  if month = 2 then if isLeapYear year then 29 else 28
  else if month = 4 ∨ month = 6 ∨ month = 9 ∨ month = 11 then 30
  else 31

/-- Passes over a date. -/
def skipDate (cs : List Char) : Option (List Char) := do
  let (year, cs) ← numberWithin 4 0 9999 cs
  let (month, cs) ← numberWithin 2 1 12 (← afterWord? ['-'] cs)
  let (_, cs) ← numberWithin 2 1 (daysIn year month) (← afterWord? ['-'] cs)
  some cs

/-- Passes over a fraction of a second, if there is one. -/
def skipSecondFraction (cs : List Char) : List Char :=
  match cs with
  | '.' :: rest => if rest.head?.any (isDigit 10) then rest.dropWhile (isDigit 10) else cs
  | _ => cs

/-- Passes over a time of day. -/
def skipTime (cs : List Char) : Option (List Char) := do
  let (_, cs) ← numberWithin 2 0 23 cs
  let (_, cs) ← numberWithin 2 0 59 (← afterWord? [':'] cs)
  let (_, cs) ← numberWithin 2 0 60 (← afterWord? [':'] cs)
  some (skipSecondFraction cs)

/-- Passes over an offset from universal time. -/
def skipOffset : List Char → Option (List Char)
  | [] => none
  | c :: cs =>
    if c = 'Z' ∨ c = 'z' then some cs
    else if c = '+' ∨ c = '-' then do
      let (_, cs) ← numberWithin 2 0 23 cs
      let (_, cs) ← numberWithin 2 0 59 (← afterWord? [':'] cs)
      some cs
    else none

/-- Passes over what may follow a date: a time, and an offset after
it. -/
def skipTimeOfDate : List Char → Option (List Char)
  | [] => none
  | c :: cs =>
    if c = 'T' ∨ c = 't' ∨ c = ' ' then
      (skipTime cs).map fun rest => (skipOffset rest).getD rest
    else none

/-- A date, a time of day, or both. -/
def moment (cs : List Char) : Reading Scalar :=
  match skipDate cs with
  | some rest => some (.moment, (skipTimeOfDate rest).getD rest)
  | none => (skipTime cs).map fun rest => (.moment, rest)

/-! ## Scalars -/

/-- A truth value. -/
def boolean (cs : List Char) : Reading Scalar :=
  match afterWord? ['t', 'r', 'u', 'e'] cs with
  | some rest => some (.boolean true, rest)
  | none => (afterWord? ['f', 'a', 'l', 's', 'e'] cs).map fun rest => (.boolean false, rest)

/-- Any value without parts. -/
def scalar (cs : List Char) : Reading Scalar :=
  match text cs with
  | some (s, rest) => some (.text s, rest)
  | none => boolean cs <|> moment cs <|> specialFloat cs <|> float cs <|> integer cs

end Toml

end CompileCommands
