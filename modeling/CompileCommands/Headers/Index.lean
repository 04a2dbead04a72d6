import CompileCommands.Borrow.Command
import CompileCommands.Headers.IncludeGraph
import CompileCommands.Layers.Basic
/-!
# The index of included files

Answers for files that have no command, from the include graph of a
source of commands: each borrows the command of its closest includer
that has one. The source is asked again for that command, so the index
itself holds no commands.
-/

namespace CompileCommands

/-- The include graph of a source, and the files the source knows. -/
structure HeaderIndex where
  graph : IncludeGraph
  known : List Path

namespace HeaderIndex

/-- The index of everything that the commands of a source include. -/
def build (h : Host) (source : Answers) : Logged (Except DbError HeaderIndex) :=
  match source.files, source.commands with
  | .error e, _ => .silent (.error e)
  | _, .error e => .silent (.error e)
  | .ok known, .ok commands =>
    let walk := IncludeGraph.walkAll h known commands
    let summary := "included-by index: " ++ toString walk.graph.length ++ " files"
    ⟨walk.lines ++ [⟨.debug, summary⟩], .ok ⟨walk.graph, known⟩⟩

/-- The file whose command `p` should borrow. -/
def lender? (x : HeaderIndex) (p : Path) : Option Path := x.graph.closest? x.known p

/-- The command for `p`: one, or none if no file with a command includes
it. -/
def find (h : Host) (x : HeaderIndex) (source : Answers) (p : Path) :
    Except DbError (List CompileCommand) :=
  let p := h.logicalPath p
  match x.lender? p with
  | none => .ok []
  | some lender =>
    (source.find lender).map fun cs => (cs.take 1).map fun c => c.lentTo h p

/-- The files of the index. -/
def files (x : HeaderIndex) : List Path := x.graph.map Prod.fst

/-- The commands for all files of the index. -/
def commands (h : Host) (x : HeaderIndex) (source : Answers) :
    Except DbError (List CompileCommand) :=
  (x.files.mapM fun p => x.find h source p).map List.flatten

end HeaderIndex

end CompileCommands
