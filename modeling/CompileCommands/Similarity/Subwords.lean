import CompileCommands.Text.Fields
/-!
# Subwords

The words that a file name is made of. Every character but ASCII letters
and digits sets words apart. Inside a word a new one starts at a capital
after a small letter or a digit, and at the last capital of several
before a small letter or a digit: `NSString` is `NS` and `String`.
-/

namespace CompileCommands

/-- Whether a character can be part of a word. -/
def isWordChar (c : Char) : Bool := c.isUpper || c.isLower || c.isDigit

/-- Whether a character is a small letter or a digit. -/
def isSmall (c : Char) : Bool := c.isLower || c.isDigit

/-- Whether a subword starts at `c`, given its neighbours. -/
def startsSubword (before c : Char) (after : Option Char) : Bool :=
  (isSmall before && c.isUpper) || (before.isUpper && c.isUpper && after.any isSmall)

/-- The subwords of a stretch of word characters. -/
def splitWord : List Char → List (List Char)
  | [] => []
  | [c] => [[c]]
  | c :: d :: rest =>
    if startsSubword c d rest.head? then [c] :: splitWord (d :: rest)
    else
      match splitWord (d :: rest) with
      | [] => [[c]]
      | w :: ws => (c :: w) :: ws

/-- The subwords of a name. -/
def subwords (name : String) : List String :=
  ((Text.fields (fun c => !isWordChar c) name.toList).flatMap splitWord).map String.ofList

end CompileCommands
