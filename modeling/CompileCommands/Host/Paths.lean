import CompileCommands.Host.Basic
import CompileCommands.Path.Place
/-!
# Paths as a host sees them

Absolute paths, paths relative to another one, the short form that
messages use, and the nearest directory above a path that holds a given
name. Shells keep the directory the user changed to in a variable, which
may lead through links that the working directory no longer shows;
`logicalPath` prefers it, as long as it names the same directory.
-/

namespace CompileCommands

namespace Host

/-- The working directory as a path. -/
def directoryPath (h : Host) : Option Path :=
  h.directory.map fun l => (Place.absolute l).toPath

/-- The canonical absolute form of a path. Without a working directory a
relative path stays relative. -/
def absolutePath (h : Host) (p : Path) : Path :=
  if p.isAbsolute then p.normalize
  else
    match h.directoryPath with
    | some d => Path.normalizeIn d p
    | none => p.normalize

/-- Whether `p` leads to the working directory. -/
def namesDirectory (h : Host) (p : Path) : Bool :=
  match h.locate p, h.directory with
  | .ok (l, _), some d => l == d
  | _, _ => false

/-- The canonical absolute form of a path, seen from the logical working
directory where there is one. -/
def logicalPath (h : Host) (p : Path) : Path :=
  if p.isAbsolute then p.normalize
  else
    match h.logicalDirectory with
    | some text =>
      let logical : Path := ⟨text⟩
      if logical.isAbsolute && h.namesDirectory logical then Path.normalizeIn logical p
      else h.absolutePath p
    | none => h.absolutePath p

/-- The number of components that two paths have in common from the
start. -/
def sharedLength : List Component → List Component → Nat
  | a :: as, b :: bs => if a = b then sharedLength as bs + 1 else 0
  | _, _ => 0

/-- How `p` is reached from the directory `base`. -/
def relativePath (h : Host) (p base : Path) : Path :=
  let ps := (h.absolutePath p).components
  let bs := (h.absolutePath base).components
  let shared := sharedLength ps bs
  let steps := List.replicate (bs.length - shared) Component.parent ++ ps.drop shared
  if steps.isEmpty then ⟨"."⟩ else Path.empty.joinAll steps

/-- The form of a path that messages use: relative if it lies at most one
level above the working directory, else absolute. -/
def shorten (h : Host) (p : Path) : Path :=
  let full := h.absolutePath p
  match h.directoryPath with
  | none => full
  | some d =>
    let relative := h.relativePath full d
    if relative.startsWith ⟨"../.."⟩ then full else relative

/-- The nearest directory at or above `start` that holds `name`. -/
def enclosing? (h : Host) (name : String) (start : Path) : Option Path :=
  (h.absolutePath start).ancestors.find? fun d => h.pathExists (d.join ⟨name⟩)

end Host

end CompileCommands
