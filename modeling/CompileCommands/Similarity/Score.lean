import CompileCommands.Path.Parts
import CompileCommands.Similarity.SharedRun
import CompileCommands.Similarity.Subwords
/-!
# Similarity of files

How alike two files are called. The longest run of subwords that both
stems have counts for them, ten for each, and every other subword counts
ten against them; files of one directory are fifty more alike.
-/

namespace CompileCommands

namespace Path

/-- The subwords of the stem. -/
def stemWords (p : Path) : List String := subwords (p.stem?.getD "")

/-- Whether two paths lie in the same directory. -/
def isSibling (p q : Path) : Bool :=
  p.parent?.map Path.components == q.parent?.map Path.components

/-- How alike two files are; more is more alike. -/
def similarity (p q : Path) : Int :=
  let shared : Int := SharedRun.longest p.stemWords q.stemWords
  let others : Int := (p.stemWords.length + q.stemWords.length : Nat) - 2 * shared
  10 * shared - 10 * others + if p.isSibling q then 50 else 0

end Path

end CompileCommands
