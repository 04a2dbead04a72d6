import CompileCommands.Glob.Reader
import CompileCommands.Path.Basic
import CompileCommands.Text.Blank
/-!
# Suppressions

Patterns for files that may be missing from a compilation database. A
pattern matches the end of a path, and its stars reach over separators:
`foo/*.h` suppresses `/src/foo/a.h` as well as `/src/lib/foo/sub/b.h`.
-/

namespace CompileCommands

/-- A pattern that is no glob, with the reason. -/
structure BadSuppression where
  glob : String
  fault : GlobFault
deriving DecidableEq, Repr

/-- The wording of an error. -/
def BadSuppression.message (e : BadSuppression) : String := e.fault.message e.glob

/-- The globs of suppressed paths. -/
structure Suppressions where
  globs : List Glob

namespace Suppressions

/-- The glob for the paths that end in a pattern. -/
def globOf (pattern : String) : Except BadSuppression Glob :=
  let glob := "*/" ++ pattern
  match Glob.ofText glob with
  | .ok g => .ok g
  | .error e => .error ⟨glob, e⟩

/-- The globs of patterns. -/
def globsOf : List String → Except BadSuppression (List Glob)
  | [] => .ok []
  | p :: ps =>
    match globOf p with
    | .error e => .error e
    | .ok g => (globsOf ps).map (g :: ·)

/-- The suppressions that patterns stand for. -/
def ofPatterns (patterns : List String) : Except BadSuppression Suppressions :=
  (globsOf patterns).map Suppressions.mk

/-- Whether a path is suppressed. -/
def covers (s : Suppressions) (p : Path) : Bool := s.globs.any fun g => g.isMatch false p.text

/-- The pattern on a line, without its comment and the blanks at its end,
among which a carriage return counts. -/
def patternOf (line : List Char) : List Char := Text.trimEnd (line.takeWhile (· != '#'))

/-- The patterns in a text: one per line, where `#` starts a comment. -/
def patternsIn (content : String) : List String :=
  ((Text.fields (· == '\n') content.toList).map patternOf).filterMap fun p =>
    if p.isEmpty then none else some (String.ofList p)

end Suppressions

end CompileCommands
