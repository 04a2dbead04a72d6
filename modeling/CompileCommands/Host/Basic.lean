import CompileCommands.FileTree.Follow
import CompileCommands.Path.Parts
/-!
# Hosts

What a run sees of the machine it runs on: a file tree, the working
directory (unless it has been removed), and the variables that name the
home directory, the configuration directory and the logical working
directory. Reading never changes a host; writing gives a new one.
-/

namespace CompileCommands

/-- What a run sees of its machine. -/
structure Host where
  tree : FileTree
  /-- The working directory; none once it has been removed. -/
  directory : Option Location
  home : Option String
  configHome : Option String
  logicalDirectory : Option String

namespace Host

/-- Where a path leads, from the working directory if it is relative. -/
def spot (h : Host) (p : Path) : Except IoError Spot :=
  if p.chars.contains '\x00' then .error .nulInName
  else if p.chars.isEmpty then .error .notFound
  else
    let pieces := Text.fields (· == '/') p.chars
    if p.isAbsolute then h.tree.follow FileTree.linkLimit [] pieces
    else
      match h.directory with
      | none => .error .notFound
      | some d => h.tree.follow FileTree.linkLimit d pieces

/-- The location and the entry that a path leads to. -/
def locate (h : Host) (p : Path) : Except IoError (Location × Entry) :=
  match h.spot p with
  | .error e => .error e
  | .ok (.vacant _) => .error .notFound
  | .ok (.taken l e) => .ok (l, e)

/-- Whether anything stands where the path leads. -/
def pathExists (h : Host) (p : Path) : Bool := (h.locate p).isOk

/-- Whether the path leads to a directory. -/
def isDirectory (h : Host) (p : Path) : Bool :=
  match h.locate p with
  | .ok (_, .directory) => true
  | _ => false

/-- Whether the path leads to a regular file. -/
def isFile (h : Host) (p : Path) : Bool :=
  match h.locate p with
  | .ok (_, .file _) => true
  | _ => false

/-- The content of the file that the path leads to. -/
def read (h : Host) (p : Path) : Except IoError ByteArray :=
  match h.locate p with
  | .error e => .error e
  | .ok (_, .file content) => .ok content
  | .ok _ => .error .isDirectory

/-- The content of a file that has to be UTF-8 text. -/
def readText (h : Host) (p : Path) : Except IoError String :=
  match h.read p with
  | .error e => .error e
  | .ok content =>
    match String.fromUTF8? content with
    | some text => .ok text
    | none => .error .notUtf8

/-- The names of the entries of the directory that the path leads to. -/
def list (h : Host) (p : Path) : List String :=
  match h.locate p with
  | .ok (l, .directory) => h.tree.names l
  | _ => []

/-- Everything below the directory that the path leads to, as paths below
`p` with what stands there. Links below it are not followed. -/
def walk (h : Host) (p : Path) : List (Path × Entry) :=
  match h.locate p with
  | .ok (l, .directory) =>
    (h.tree.below l).map fun e => (p.joinAll ((e.1.drop l.length).map .name), e.2)
  | _ => []

/-- The host after `content` has been written to the file that the path
leads to, which is created if its directory exists. -/
def write (h : Host) (p : Path) (content : ByteArray) : Except IoError Host :=
  match h.spot p with
  | .error e => .error e
  | .ok (.taken l (.file _)) | .ok (.vacant l) =>
    match h.tree.put? l (.file content) with
    | some t => .ok { h with tree := t }
    | none => .error .notFound
  | .ok (.taken _ _) => .error .isDirectory

/-- The host after the directory `p` and the missing ones above it have
been made. -/
def makeDirectories (h : Host) (p : Path) : Host :=
  p.ancestors.reverse.foldl (fun h q =>
    match h.spot q with
    | .ok (.vacant l) =>
      match h.tree.put? l .directory with
      | some t => { h with tree := t }
      | none => h
    | _ => h) h

/-- The host after a link to `target` has been placed at `p`. -/
def linkTo (h : Host) (p target : Path) : Host :=
  match h.spot p with
  | .ok (.vacant l) =>
    match h.tree.put? l (.link target) with
    | some t => { h with tree := t }
    | none => h
  | _ => h

/-- The location of the entry that `p` names. A link that stands there is
itself the entry. -/
def locationOf? (h : Host) (p : Path) : Option Location :=
  match p.parent?, p.fileName? with
  | some dir, some n =>
    match h.locate (if dir.chars.isEmpty then ⟨"."⟩ else dir) with
    | .ok (l, .directory) => if (h.tree.entry? (l ++ [n])).isSome then some (l ++ [n]) else none
    | _ => none
  | _, _ => none

/-- The host after what `p` names has been removed with everything below
it. The working directory may be among it. -/
def remove (h : Host) (p : Path) : Host :=
  match h.locationOf? p with
  | none => h
  | some l =>
    { h with
      tree := h.tree.remove l
      directory := h.directory.filter fun d => !l.isPrefixOf d }

end Host

end CompileCommands
