import CompileCommands.Text.Fields
/-!
# Paths

A path keeps the text it was built as, because that text is what is
written into a database or printed. What the text means is its list of
components: repeated and trailing separators and inner `.` components
carry no meaning, a leading `.` does. Two spellings of one component
list are the same path (`Path.same`), and paths are ordered by their
components (`Path.le`), so that `/p/a/b` comes before `/p/a-b`.
-/

namespace CompileCommands

/-- One step of a path. -/
inductive Component where
  | root
  | current
  | parent
  | name (text : String)
deriving DecidableEq, Repr

namespace Component

/-- The component as it is written. -/
def text : Component → String
  | root => "/"
  | current => "."
  | parent => ".."
  | name n => n

/-- The component that a stretch between separators stands for. An empty
stretch and a `.` stand for none. -/
def ofPiece? : List Char → Option Component
  | [] => none
  | ['.'] => none
  | ['.', '.'] => some parent
  | cs => some (name (String.ofList cs))

/-- The number sequence that components are ordered by: the root, `.`,
`..`, then the names by their characters. -/
def sortKey : Component → List Nat
  | root => [0]
  | current => [1]
  | parent => [2]
  | name n => 3 :: n.toList.map Char.toNat

end Component

/-- A path, as it was written. -/
structure Path where
  text : String
deriving DecidableEq, Repr, Inhabited

namespace Path

/-- The path without any component. -/
def empty : Path := ⟨""⟩

/-- The characters of the path. -/
def chars (p : Path) : List Char := p.text.toList

/-- Whether the path starts at the root. -/
def isAbsolute (p : Path) : Bool := p.chars.head? == some '/'

/-- What a path's text starts with, apart from its pieces: the root, a
leading `.`, or neither. -/
def lead (p : Path) : Option Component :=
  match p.chars with
  | '/' :: _ => some .root
  | cs => if (Text.fields (· == '/') cs).head? = some ['.'] then some .current else none

/-- The stretches between the separators that follow the lead. -/
def pieces (p : Path) : List (List Char) :=
  match p.chars with
  | '/' :: cs => Text.fields (· == '/') cs
  | cs =>
    let fs := Text.fields (· == '/') cs
    if fs.head? = some ['.'] then fs.tail else fs

/-- What the path means. -/
def components (p : Path) : List Component :=
  p.lead.toList ++ p.pieces.filterMap Component.ofPiece?

/-- The path with the given lead and pieces. -/
def ofPieces : Option Component → List (List Char) → Path
  | some .root, ps => ⟨String.ofList ('/' :: List.intercalate ['/'] ps)⟩
  | some c, ps => ⟨String.ofList (List.intercalate ['/'] (c.text.toList :: ps))⟩
  | none, ps => ⟨String.ofList (List.intercalate ['/'] ps)⟩

/-- Whether two texts spell the same path. -/
def same (p q : Path) : Bool := p.components == q.components

/-- The number sequences that paths are ordered by. -/
def sortKey (p : Path) : List (List Nat) := p.components.map Component.sortKey

/-- The order of paths: component by component. -/
def le (p q : Path) : Bool :=
  (List.compareLex (List.compareLex compare) p.sortKey q.sortKey).isLE

/-- The path `q` seen from the directory `p`. An absolute `q` stands for
itself; joining an empty `q` marks `p` as a directory by a final
separator. -/
def join (p q : Path) : Path :=
  if q.isAbsolute then q
  else
    match p.chars.getLast? with
    | none => q
    | some c => if c = '/' then ⟨p.text ++ q.text⟩ else ⟨p.text ++ "/" ++ q.text⟩

/-- The path `p` followed by the given components. -/
def joinAll (p : Path) (cs : List Component) : Path :=
  cs.foldl (fun q c => q.join ⟨c.text⟩) p

/-- Whether the components of `q` are the first components of `p`. -/
def startsWith (p q : Path) : Bool := q.components.isPrefixOf p.components

end Path

/-- Sorted by the order of paths, each path once. -/
def sortPaths (ps : List Path) : List Path :=
  let sorted := ps.mergeSort Path.le
  sorted.foldr (fun p kept =>
    match kept with
    | [] => [p]
    | q :: _ => if p.same q then p :: kept.tail else p :: kept) []

end CompileCommands
