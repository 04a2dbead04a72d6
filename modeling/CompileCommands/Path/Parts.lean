import CompileCommands.Path.Basic
/-!
# Parts of a path

The directory a path lies in, its last name, the stem and the extension
of that name, the directories above it, and the rest of a path below a
directory. All of them read the components; where a part is a path
again, it keeps the text between the separators as it was written.
-/

namespace CompileCommands

namespace Path

/-- Whether a stretch between separators carries no meaning. -/
def isIdle (piece : List Char) : Bool := (Component.ofPiece? piece).isNone

/-- The pieces without the idle ones at the end. -/
def trimPieces (ps : List (List Char)) : List (List Char) :=
  (ps.reverse.dropWhile isIdle).reverse

/-- The path without its last component. The root and the empty path
have no parent. -/
def parent? (p : Path) : Option Path :=
  match trimPieces p.pieces, p.lead with
  | [], some .current => some empty
  | [], _ => none
  | ps, lead => some (ofPieces lead (trimPieces ps.dropLast))

/-- The last component, if it is a name. -/
def fileName? (p : Path) : Option String :=
  match p.components.getLast? with
  | some (.name n) => some n
  | _ => none

/-- A file name before and after its last dot. A name without a dot, or
with its only dot in front, has no extension. -/
def splitName (n : String) : String × Option String :=
  match Text.cutLast (· == '.') n.toList with
  | none => (n, none)
  | some ([], _) => (n, none)
  | some (stem, ext) => (String.ofList stem, some (String.ofList ext))

/-- The file name without its extension. -/
def stem? (p : Path) : Option String := p.fileName?.map fun n => (splitName n).1

/-- What follows the last dot of the file name. -/
def extension? (p : Path) : Option String := p.fileName?.bind fun n => (splitName n).2

/-- The path and at most `n` paths above it, nearest first. -/
def ancestorsUpTo : Nat → Path → List Path
  | 0, p => [p]
  | n + 1, p =>
    match p.parent? with
    | none => [p]
    | some q => p :: ancestorsUpTo n q

/-- The path and every path above it, nearest first. Each step up drops
one component. -/
def ancestors (p : Path) : List Path := ancestorsUpTo p.components.length p

/-- The pieces that remain after the first `n` that carry a meaning. -/
def dropMeaningful : Nat → List (List Char) → List (List Char)
  | 0, ps => ps.dropWhile isIdle
  | _ + 1, [] => []
  | n + 1, p :: ps =>
    if isIdle p then dropMeaningful (n + 1) ps else dropMeaningful n ps

/-- The rest of `p` below the directory `base`, if it lies there. -/
def below? (p base : Path) : Option Path :=
  let covered := base.components.length
  if !p.startsWith base then none
  else if covered = 0 then some (ofPieces p.lead (trimPieces p.pieces))
  else
    let skipped := covered - p.lead.toList.length
    some (ofPieces none (trimPieces (dropMeaningful skipped p.pieces)))

end Path

end CompileCommands
