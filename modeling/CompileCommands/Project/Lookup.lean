import CompileCommands.Headers.Index
import CompileCommands.Project.Basic
/-!
# Looking up files in a project

A file that has no command of its own borrows one through the index of
included files. The index is built when the first such file comes, and
used for all further ones.
-/

namespace CompileCommands

/-- What looking up files has found. -/
structure Lookup where
  /-- The commands, in the order of the files. -/
  commands : List CompileCommand
  /-- The files without a command. -/
  missing : List Path

namespace Lookup

/-- What has been found for one file. -/
def ofFile (p : Path) (found : List CompileCommand) : Lookup :=
  ⟨found, if found.isEmpty then [p] else []⟩

/-- One lookup after another. -/
def append (a b : Lookup) : Lookup := ⟨a.commands ++ b.commands, a.missing ++ b.missing⟩

end Lookup

namespace Project

/-- The index of a project. -/
def index (h : Host) (project : Project) : Logged (Except DbError HeaderIndex) :=
  let built := HeaderIndex.build h (project.answers h)
  ⟨⟨.debug, "building the included-by index"⟩ :: built.notes, built.value⟩

/-- The commands for a file, with the index as it is after them. -/
def findOrBorrow (h : Host) (project : Project) (unique : Bool) (built : Option HeaderIndex)
    (p : Path) : Logged (Except DbError (List CompileCommand × Option HeaderIndex)) :=
  match project.find h unique p with
  | .error e => .silent (.error e)
  | .ok (c :: cs) => .silent (.ok (c :: cs, built))
  | .ok [] =>
    let ready : Logged (Except DbError HeaderIndex) :=
      match built with
      | some x => .silent (.ok x)
      | none => project.index h
    ready.onOk fun x => .silent ((x.find h (project.answers h) p).map fun cs => (cs, some x))

/-- Looks up files, given the index if it has been built. -/
def lookupFrom (h : Host) (project : Project) (unique : Bool) :
    Option HeaderIndex → List Path → Logged (Except DbError Lookup)
  | _, [] => .silent (.ok ⟨[], []⟩)
  | built, p :: ps =>
    (project.findOrBorrow h unique built p).onOk fun r =>
      (project.lookupFrom h unique r.2 ps).onOk fun rest =>
        .silent (.ok ((Lookup.ofFile p r.1).append rest))

/-- Looks up files. -/
def lookup (h : Host) (project : Project) (unique : Bool) (files : List Path) :
    Logged (Except DbError Lookup) :=
  project.lookupFrom h unique none files

end Project

end CompileCommands
