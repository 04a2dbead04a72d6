import CompileCommands.Project.Suppression
/-!
# Coverage

How the files of a compilation database compare with the files of a
project. Files that only the database knows are told but do no harm:
system headers and generated files are among them. A project is covered
if the database knows all its files that are not suppressed.
-/

namespace CompileCommands

/-- What two sets of files do not share. -/
structure Coverage where
  /-- The files that only the database knows, sorted. -/
  databaseOnly : List Path
  /-- The files that only the project has and that are not suppressed,
  sorted. -/
  projectOnly : List Path
deriving DecidableEq, Repr

namespace Coverage

/-- Sorted, each path once, spelled as it came last. -/
def distinct (ps : List Path) : List Path :=
  (ps.mergeSort Path.le).foldr (fun p kept =>
    match kept with
    | [] => [p]
    | q :: _ => if p.same q then kept else p :: kept) []

/-- Whether one of the paths is the path `p`. -/
def knows (ps : List Path) (p : Path) : Bool := ps.any p.same

/-- The comparison of the files of a database with those of a project. -/
def compare (database project : List Path) (s : Suppressions) : Coverage :=
  { databaseOnly := (distinct database).filter fun p => !knows project p
    projectOnly := (distinct project).filter fun p => !knows database p && !s.covers p }

/-- Whether nothing is missing from the database. -/
def isComplete (c : Coverage) : Bool := c.projectOnly.isEmpty

end Coverage

end CompileCommands
