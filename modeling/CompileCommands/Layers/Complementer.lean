import CompileCommands.Database.Basic
import CompileCommands.Log
/-!
# Complementers

A complementer derives compile commands for files that the databases
below it do not know: for every build directory a list of commands. What
it derives is kept in the directory in a cache file that carries its
name, which is why a name is made of lower-case letters, digits and
single underscores between them.
-/

namespace CompileCommands

/-- What a database holds when it is looked at. -/
abbrev Contents := Except DbError (List CompileCommand)

/-- A way to derive a layer of commands from the layers below it, given
as one list of contents per layer. -/
structure Complementer where
  derive : Host → List (List Contents) → Logged (Except DbError (List (List CompileCommand)))
  /-- Whether the database of a layer (first number) and a directory
  (second number) is read on the way. -/
  reads : List (List Contents) → Nat → Nat → Bool

/-- A letter from `a` to `z`. -/
def isNameLetter (c : Char) : Bool := 'a' ≤ c && c ≤ 'z'

/-- A letter from `a` to `z` or a digit. -/
def isNameChar (c : Char) : Bool := isNameLetter c || ('0' ≤ c && c ≤ '9')

/-- Whether a complementer can be called that: words of letters and
digits joined by underscores, with a letter in front. -/
def isComplementerName (name : String) : Bool :=
  name.toList.head?.any isNameLetter &&
    (Text.fields (· == '_') name.toList).all fun w => !w.isEmpty && w.all isNameChar

/-- A complementer under its name. -/
structure NamedComplementer where
  name : String
  complementer : Complementer
  valid : isComplementerName name = true

namespace NamedComplementer

/-- The complementer under the name, if it can be called that. -/
def of (name : String) (c : Complementer) : Except DbError NamedComplementer :=
  if h : isComplementerName name = true then .ok ⟨name, c, h⟩ else .error (.badName name)

/-- The name of the cache file. -/
def cacheName (c : NamedComplementer) : String := c.name ++ ".json"

/-- The cache file in a build directory. -/
def cacheFile (c : NamedComplementer) (directory : Path) : Path :=
  directory.join ⟨c.cacheName⟩

end NamedComplementer

end CompileCommands
