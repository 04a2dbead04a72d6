import CompileCommands.Host.Paths
import CompileCommands.Include.Directive
import CompileCommands.Log
/-!
# Finding included files

Where an included file is looked for: a quoted name first in the
directory of the file that includes it, then, as any name, in the search
directories in order. The first directory in which a regular file stands
under the name wins.

Looking for a file leaves a log line, and so does a file that is to be
scanned but cannot be read.
-/

namespace CompileCommands

namespace Include

/-- The directory in which the quoted includes of a file are looked for
first. -/
def ownDirectory? (includer : Path) : Option Path :=
  includer.parent?.filter fun d => !d.chars.isEmpty

/-- The directories in which an include is looked for. -/
def places (i : Include) (includer : Path) (directories : List Path) : List Path :=
  match i.delimiter with
  | .quoted => (ownDirectory? includer).toList ++ directories
  | .angled => directories

/-- The directory in which the included file is found. -/
def directory? (h : Host) (i : Include) (includer : Path) (directories : List Path) :
    Option Path :=
  (i.places includer directories).find? fun d => h.isFile (d.join ⟨i.name⟩)

/-- The canonical path of the included file. -/
def file? (h : Host) (i : Include) (includer : Path) (directories : List Path) : Option Path :=
  (i.directory? h includer directories).map fun d => Path.normalizeIn d ⟨i.name⟩

/-- What is logged when an include is looked for. A name between angles
is often one of the system's, so missing it matters less. -/
def searchLine (h : Host) (i : Include) (includer : Path) (directories : List Path) : LogLine :=
  let shown := (h.shorten includer).text
  match i.directory? h includer directories, i.delimiter with
  | some _, _ => ⟨.debug, shown ++ ": resolved header: " ++ i.display⟩
  | none, .quoted => ⟨.warn, shown ++ ": could not resolve header: " ++ i.display⟩
  | none, .angled => ⟨.debug, shown ++ ": could not resolve header: " ++ i.display⟩

end Include

namespace Host

/-- The include directives of a file. A file that cannot be read has
none. -/
def includesOf (h : Host) (file : Path) : List Include :=
  match h.read file with
  | .ok content => Include.ofContent content.toList
  | .error _ => []

/-- What is logged when a file is scanned. -/
def scanLines (h : Host) (file : Path) : List LogLine :=
  match h.read file with
  | .ok _ => []
  | .error e => [⟨.warn, (h.shorten file).text ++ ": " ++ e.message⟩]

end Host

end CompileCommands
