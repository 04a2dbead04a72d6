import CompileCommands.Borrow.Arguments
import CompileCommands.Include.Search
import CompileCommands.Similarity.Score
/-!
# Include graphs

Who includes a file: for every file that is reached from the main file
of a command and has no command itself, the files that include it, both
in the order in which they are found. The includes are walked depth
first over an explicit stack. A file is scanned once, the first time it
is reached, with the search directories of the command that reached
it.

`closest?` goes the other way: level by level through the includers of a
file to the first level with a file that has a command, and there to the
one most alike.
-/

namespace CompileCommands

/-- The files that include a file, by file. -/
abbrev IncludeGraph := List (Path × List Path)

namespace IncludeGraph

/-- The files that include `p`. -/
def includers (g : IncludeGraph) (p : Path) : List Path := (g.lookup p).getD []

/-- The graph with one more includer of a file. A repeated one changes
nothing. -/
def insert : IncludeGraph → Path → Path → IncludeGraph
  | [], p, includer => [(p, [includer])]
  | (q, is) :: g, p, includer =>
    if q = p then (q, if includer ∈ is then is else is ++ [includer]) :: g
    else (q, is) :: insert g p includer

/-- The graph with the edge from a file to its includer, unless the file
includes itself or has a command. -/
def addEdge (known : List Path) (g : IncludeGraph) (p includer : Path) : IncludeGraph :=
  if p = includer ∨ p ∈ known then g else g.insert p includer

/-! ## Walking the includes -/

/-- How far a walk has come: the files that have been reached, the graph,
and what has been logged. -/
structure Walk where
  reached : List Path
  graph : IncludeGraph
  lines : List LogLine

/-- The walk that has not started. -/
def Walk.start : Walk := ⟨[], [], []⟩

/-- The walk after one more file has been reached and scanned. -/
def Walk.reach (h : Host) (w : Walk) (p : Path) : Walk :=
  { w with reached := p :: w.reached, lines := w.lines ++ h.scanLines p }

/-- The includes on a stack, and the files that hold them. -/
def stackSize (stack : List (Path × List Include)) : Nat :=
  stack.foldr (fun e size => e.2.length + 1 + size) 0

/-- Walks the includes on a stack, innermost file first, going into at
most the given number of files. A file without includes is not gone
into. -/
def walkStack (h : Host) (known directories : List Path) (limit : Nat)
    (stack : List (Path × List Include)) (w : Walk) : Walk :=
  match stack with
  | [] => w
  | (_, []) :: stack => walkStack h known directories limit stack w
  | (f, i :: is) :: stack =>
    let w := { w with lines := w.lines ++ [i.searchLine h f directories] }
    match i.file? h f directories with
    | none => walkStack h known directories limit ((f, is) :: stack) w
    | some p =>
      let w := { w with graph := w.graph.addEdge known p f }
      if p ∈ w.reached then walkStack h known directories limit ((f, is) :: stack) w
      else
        match h.includesOf p with
        | [] => walkStack h known directories limit ((f, is) :: stack) (w.reach h p)
        | inner =>
          match limit with
          | 0 => w
          | limit + 1 =>
            walkStack h known directories limit ((p, inner) :: (f, is) :: stack) (w.reach h p)
termination_by (limit, stackSize stack)
decreasing_by
  all_goals simp_wf
  all_goals first
    | (apply Prod.Lex.right; simp [stackSize]; try omega)
    | (apply Prod.Lex.left; omega)

/-- More files than a walk can go into: every one of them can be read
under a canonical path of its own. -/
def reachLimit (h : Host) : Nat :=
  Nat.pow (h.tree.entries.length + 2) (FileTree.linkLimit + 2)

/-- Walks the includes of a command's main file. -/
def walkCommand (h : Host) (known : List Path) (w : Walk) (c : CompileCommand) : Walk :=
  let main := c.normalizedFile
  if main ∈ w.reached then w
  else
    walkStack h known c.searchDirectories (reachLimit h) [(main, h.includesOf main)]
      (w.reach h main)

/-- Walks the includes of several commands. -/
def walkAll (h : Host) (known : List Path) (cs : List CompileCommand) : Walk :=
  cs.foldl (walkCommand h known) Walk.start

/-! ## The closest includer -/

/-- The includers of a level that have not been visited. -/
def nextLevel (g : IncludeGraph) (visited level : List Path) : List Path :=
  (level.flatMap g.includers).foldl
    (fun next p => if p ∈ visited ∨ p ∈ next then next else next ++ [p]) []

/-- The first of the paths that are most like `p`. -/
def mostAlike (p : Path) : List Path → Option Path
  | [] => none
  | q :: qs =>
    some (qs.foldl (fun best r => if p.similarity best < p.similarity r then r else best) q)

/-- The closest file with a command above a level, at most the given
number of levels up. -/
def closestFrom (g : IncludeGraph) (known : List Path) (p : Path) :
    Nat → List Path → List Path → Option Path
  | 0, _, _ => none
  | n + 1, visited, level =>
    let next := g.nextLevel visited level
    match mostAlike p (next.filter (· ∈ known)) with
    | some q => some q
    | none => if next.isEmpty then none else closestFrom g known p n (next ++ visited) next

/-- The file with a command whose command `p` should borrow: the closest
includer, the most alike among several. Every level has an includer that
no level before has, which bounds their number. -/
def closest? (g : IncludeGraph) (known : List Path) (p : Path) : Option Path :=
  let p := Path.empty.joinAll p.components
  closestFrom g known p (g.foldr (fun e edges => e.2.length + edges) 1) [p] [p]

end IncludeGraph

end CompileCommands
