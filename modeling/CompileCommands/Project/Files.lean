import CompileCommands.Host.Paths
/-!
# The files of a project

The C and C++ files below the directories of a project, found by their
extensions. Case matters: `.C` is C++. Links below a directory are not
followed, but a link counts as a file where its own name has the
extension.
-/

namespace CompileCommands

/-- A group of files. -/
inductive FileGroup where
  | source
  | header
deriving DecidableEq, Repr

/-- The extensions of a group. -/
def FileGroup.extensions : FileGroup → List String
  | source => ["c", "C", "cc", "c++", "C++", "cxx", "cpp"]
  | header => ["h", "H", "hh", "h++", "H++", "hxx", "hpp"]

/-- Whether a path has an extension of one of the groups. -/
def Path.isAmong (p : Path) (groups : List FileGroup) : Bool :=
  p.extension?.any fun e => groups.any fun g => g.extensions.contains e

namespace Host

/-- The files of the groups below a directory. -/
def filesBelow (h : Host) (groups : List FileGroup) (directory : Path) : List Path :=
  (h.walk directory).filterMap fun (p, entry) =>
    match entry with
    | .directory => none
    | _ => if p.isAmong groups then some p else none

/-- The files of the groups at a root, which may be a directory or a
file. Fails if nothing is there. -/
def filesAt (h : Host) (groups : List FileGroup) (root : Path) : Option (List Path) :=
  if h.isDirectory root then some (h.filesBelow groups root)
  else if h.isFile root && root.isAmong groups then some [root]
  else if h.pathExists root then some []
  else none

/-- The files of the groups at several roots. The error is the first root
that does not exist. -/
def filesAtEach (h : Host) (groups : List FileGroup) : List Path → Except Path (List Path)
  | [] => .ok []
  | root :: roots =>
    let root := h.logicalPath root
    match h.filesAt groups root with
    | none => .error root
    | some files => (h.filesAtEach groups roots).map (files ++ ·)

/-- The files of the groups at several roots, sorted, each once. -/
def projectFiles (h : Host) (groups : List FileGroup) (roots : List Path) :
    Except Path (List Path) :=
  (h.filesAtEach groups roots).map sortPaths

end Host

/-- A path as seen from a directory: what follows the directory if the
path lies below it, and otherwise the path itself. -/
def Path.seenFrom (p directory : Path) : Path :=
  match p.below? directory with
  | some rest => if rest.chars.isEmpty then p else rest
  | none => p

end CompileCommands
