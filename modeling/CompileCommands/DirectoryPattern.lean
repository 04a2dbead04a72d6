import CompileCommands.Database.Error
import CompileCommands.Host.Basic
/-!
# Directory patterns

A pattern names directories. Without any of `*`, `?`, `[` and `{` it
names itself, if it is a directory. Otherwise it is followed component
by component: one with such a character is a glob for the names of
subdirectories, any other one is taken as it is. A name that starts with
a dot is matched only by a component that does so too.

A pattern that is relative gives relative paths. They are sorted, and
each is given once.
-/

namespace CompileCommands

namespace DirectoryPattern

/-- Whether a text has to be read as a glob. -/
def isGlob (cs : List Char) : Bool :=
  cs.any fun c => c == '*' || c == '?' || c == '[' || c == '\x7b'

/-- The pattern without the separators at its end, unless it has nothing
else. -/
def trimmed (pattern : String) : List Char :=
  let cs := (pattern.toList.reverse.dropWhile (· == '/')).reverse
  if cs.isEmpty then pattern.toList else cs

/-- The path under which the host knows a result; the empty path is the
working directory. -/
def onHost (p : Path) : Path := if p.chars.isEmpty then ⟨"."⟩ else p

/-- Whether a glob component takes an entry of that name. -/
def takes (component : String) (g : Glob) (name : String) : Bool :=
  (component.toList.head? == some '.' || name.toList.head? != some '.') && g.isMatch true name

/-- The subdirectories of `dir` that a glob component takes. -/
def children (h : Host) (component : String) (g : Glob) (dir : Path) : List Path :=
  ((h.list (onHost dir)).filter fun n =>
    takes component g n && h.isDirectory ((onHost dir).join ⟨n⟩)).map fun n => dir.join ⟨n⟩

/-- The directories that the component leads to from those reached so
far. -/
def advance (h : Host) (pattern : String) (dirs : List Path) (c : Component) :
    Except DbError (List Path) :=
  let plain := (dirs.map fun d => d.join ⟨c.text⟩).filter fun d => h.isDirectory (onHost d)
  match c with
  | .name n =>
    if isGlob n.toList then
      match Glob.ofText n with
      | .error e => .error (.badPattern pattern n e)
      | .ok g => .ok (dirs.flatMap (children h n g))
    else .ok plain
  | _ => .ok plain

/-- The directories that the components lead to. Once there are none, the
rest of the pattern is not looked at. -/
def follow (h : Host) (pattern : String) : List Path → List Component → Except DbError (List Path)
  | dirs, [] => .ok dirs
  | dirs, c :: cs =>
    match advance h pattern dirs c with
    | .error e => .error e
    | .ok [] => .ok []
    | .ok dirs => follow h pattern dirs cs

/-- The directories that the pattern names. -/
def expand (h : Host) (pattern : String) : Except DbError (List Path) :=
  let cs := trimmed pattern
  let whole : Path := ⟨String.ofList cs⟩
  if isGlob cs then (follow h pattern [Path.empty] whole.components).map sortPaths
  else .ok (if h.isDirectory whole then [whole] else [])

end DirectoryPattern

end CompileCommands
