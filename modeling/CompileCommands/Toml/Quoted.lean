import CompileCommands.Toml.Text
/-!
# Writing TOML texts

A text is written in the first form that shows it as it is, basic before
literal and short before long. If no form does, because of a control
character or of quotes of both kinds in a row, it is written between
double quotes with escapes, over several lines if it has several.
-/

namespace CompileCommands

namespace Toml

/-- The length of the longest run of `c`, when `current` of them stand in
front. -/
def longestRun (c : Char) : Nat → List Char → Nat
  | current, [] => current
  | current, x :: xs =>
    if x = c then longestRun c (current + 1) xs else max current (longestRun c 0 xs)

/-- Whether a character can only be written as an escape. -/
def needsEscape (c : Char) : Bool := isControl c && c != '\n'

/-- The form in which a text is written. -/
def formOf (cs : List Char) : TextForm :=
  let direct := !cs.any needsEscape
  let oneLine := !cs.contains '\n'
  let noBackslash := !cs.contains '\\'
  let doubles := longestRun '"' 0 cs
  let singles := longestRun '\'' 0 cs
  if direct && oneLine && noBackslash && doubles == 0 then .basic
  else if direct && oneLine && singles == 0 then .literal
  else if direct && noBackslash && doubles ≤ 2 then .longBasic
  else if direct && singles ≤ 2 then .longLiteral
  else if oneLine then .basic
  else .longBasic

/-- An upper-case hexadecimal digit. -/
def hexChar (n : Nat) : Char := if n < 10 then Char.ofNat (0x30 + n) else Char.ofNat (0x37 + n)

/-- The escape for a character that needs one, or is a tab or a
backslash. -/
def escapeFor? (c : Char) : Option (List Char) :=
  if c = '\\' then some ['\\', '\\']
  else if c = '\x08' then some ['\\', 'b']
  else if c = '\t' then some ['\\', 't']
  else if c = '\x0C' then some ['\\', 'f']
  else if c = '\r' then some ['\\', 'r']
  else if needsEscape c then
    some ['\\', 'u', '0', '0', hexChar (c.toNat / 16), hexChar (c.toNat % 16)]
  else none

/-- The characters of a text between double quotes. `run` of the quotes
directly before stand for themselves; a long text may have two of them in
a row, a short one none. -/
def escaped (long : Bool) : Nat → List Char → List Char
  | _, [] => []
  | run, c :: cs =>
    if c = '"' then
      if long && run < 2 then '"' :: escaped long (run + 1) cs
      else '\\' :: '"' :: escaped long 0 cs
    else if c = '\n' then
      if long then '\n' :: escaped long 0 cs else '\\' :: 'n' :: escaped long 0 cs
    else
      match escapeFor? c with
      | some e => e ++ escaped long 0 cs
      | none => c :: escaped long 0 cs

/-- A text in a given form. A long text with several lines starts on a
line of its own. -/
def quotedAs (f : TextForm) (cs : List Char) : List Char :=
  let start := if f.isLong && cs.contains '\n' then ['\n'] else []
  f.delimiter ++ start ++ (if f.escapes then escaped f.isLong 0 cs else cs) ++ f.delimiter

/-- A text as it is written. -/
def quoted (s : String) : List Char := quotedAs (formOf s.toList) s.toList

end Toml

end CompileCommands
