import CompileCommands.Path.Basic
/-!
# Places

Where a path leads once its `.` and `..` components are folded, without
looking at any file system. An absolute place is a list of names below
the root; a relative one goes up some levels first. Folding is a
left fold of `Place.step` over the components, so following one path
after another is folding the second from where the first ended.
-/

namespace CompileCommands

/-- Where a path leads. -/
inductive Place where
  | absolute (names : List String)
  | relative (ups : Nat) (names : List String)
deriving DecidableEq, Repr

namespace Place

/-- Where every relative path starts. -/
def here : Place := relative 0 []

/-- One component further. Above the root is the root. -/
def step : Place → Component → Place
  | _, .root => absolute []
  | p, .current => p
  | absolute ns, .parent => absolute ns.dropLast
  | relative k [], .parent => relative (k + 1) []
  | relative k ns, .parent => relative k ns.dropLast
  | absolute ns, .name n => absolute (ns ++ [n])
  | relative k ns, .name n => relative k (ns ++ [n])

/-- The place reached from `p` along the components. -/
def walk (p : Place) (cs : List Component) : Place := cs.foldl step p

/-- The components of the place's canonical path. -/
def components : Place → List Component
  | absolute ns => .root :: ns.map .name
  | relative k ns => List.replicate k .parent ++ ns.map .name

/-- The names of the canonical path, parents included. -/
def words : Place → List String
  | absolute ns => ns
  | relative k ns => List.replicate k ".." ++ ns

/-- The canonical path of the place: no `.`, no `..` after a name, one
separator between components, and `.` for the place where one stands. -/
def toPath (p : Place) : Path :=
  match p with
  | relative 0 [] => ⟨"."⟩
  | relative _ _ => Path.ofPieces none (p.words.map String.toList)
  | absolute _ => Path.ofPieces (some .root) (p.words.map String.toList)

end Place

namespace Path

/-- Where the path leads. -/
def place (p : Path) : Place := Place.here.walk p.components

/-- The canonical path to where `p` leads. -/
def normalize (p : Path) : Path := p.place.toPath

/-- The canonical path to `file` seen from `directory`. -/
def normalizeIn (directory file : Path) : Path := (directory.join file).normalize

end Path

end CompileCommands
