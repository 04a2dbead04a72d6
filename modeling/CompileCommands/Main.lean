import CompileCommands.CommandLine.Program
import CompileCommands.CommandLine.Reach
/-!
# The command line

Copies what the program looks at from the machine into a host, runs the
program on it, prints what it has written, and saves the files that it
has changed.
-/

namespace CompileCommands

namespace Machine

/-- The text of the absolute path to a location. -/
def textOf (l : Location) : String := "/" ++ String.intercalate "/" l

/-- The host with one more entry, unless a directory stands there. -/
def withEntry (h : Host) (l : Location) (e : Entry) : Host :=
  { h with tree := (h.tree.put? l e).getD h.tree }

/-- What a link finally leads to. One that leads nowhere is copied as a
link to a name that nothing can have. -/
def linkTarget (l : Location) : IO String := do
  match ← (IO.FS.realPath (textOf l)).toBaseIO with
  | .ok p => if p.toString == textOf l then return "/\x00" else return p.toString
  | .error _ => return "/\x00"

/-- Copies what the pieces of a path lead through, from a location on,
and gives the directory that they lead to. The content of a file that the
path leads to is copied if it is asked for. -/
partial def copyPath (content : Bool) (h : Host) (l : Location) :
    List String → IO (Host × Option Location)
  | [] => return (h, some l)
  | piece :: rest => do
    if piece.isEmpty || piece == "." then copyPath content h l rest
    else if piece == ".." then copyPath content h l.dropLast rest
    else
      let here := l ++ [piece]
      let place := (← IO.FS.realPath "/") / textOf here
      match ← place.symlinkMetadata.toBaseIO with
      | .error _ => return (h, none)
      | .ok data =>
        match data.type with
        | .dir => copyPath content (withEntry h here .directory) here rest
        | .symlink =>
          let target ← linkTarget here
          match ← copyPath content (withEntry h here (.link ⟨target⟩)) []
              (target.splitOn "/" ++ rest) with
          | (h, reached) => return (h, reached)
        | _ =>
          if content && rest.isEmpty then
            return (withEntry h here (.file (← IO.FS.readBinFile place)), none)
          else if (h.tree.entry? here).isSome then return (h, none)
          else return (withEntry h here (.file .empty), none)

/-- The pieces of a path from the root on. -/
def pieces (h : Host) (p : Path) : List String :=
  if p.isAbsolute then p.text.splitOn "/"
  else h.directory.getD [] ++ p.text.splitOn "/"

/-- Copies which entries a directory has, in all depths if need be. -/
partial def copyNames (deep : Bool) (h : Host) (p : Path) : IO Host := do
  match ← copyPath false h [] (pieces h p) with
  | (h, none) => return h
  | (h, some l) =>
    match ← ((← IO.FS.realPath "/") / textOf l).readDir.toBaseIO with
    | .error _ => return h
    | .ok found =>
      found.toList.foldlM (fun h e => do
        let here := l ++ [e.fileName]
        let (h, _) ← copyPath false h l [e.fileName]
        if deep && h.tree.entry? here = some .directory then copyNames true h ⟨textOf here⟩
        else return h) h

/-- Copies what a look asks about. -/
def copyLook (h : Host) : Look → IO Host
  | .at p => do return (← copyPath true h [] (pieces h p)).1
  | .names p => copyNames false h p
  | .below p => copyNames true h p

/-- Copies everything that an invocation looks at. -/
partial def copyAll (i : Invocation) (done : List Look) (h : Host) : IO Host := do
  let new := ((i.looks h).filter fun k => !done.contains k).eraseDups
  if new.isEmpty then return h
  copyAll i (new ++ done) (← new.foldlM copyLook h)

/-- The host into which nothing but the way to the working directory has
been copied. -/
def bareHost : IO Host := do
  let h : Host := ⟨.empty, none, ← IO.getEnv "HOME", ← IO.getEnv "XDG_CONFIG_HOME",
    ← IO.getEnv "PWD"⟩
  match ← IO.currentDir.toBaseIO with
  | .error _ => return h
  | .ok d =>
    let (h, l) ← copyPath false h [] (d.toString.splitOn "/")
    return { h with directory := l }

/-- Saves the files in which the second host differs from the first. -/
def saveChanges (before after : Host) : IO Unit :=
  after.tree.entries.forM fun (l, e) => do
    match e with
    | .file content =>
      if before.tree.entry? l ≠ some e then IO.FS.writeBinFile (textOf l) content
    | _ => return ()

end Machine

end CompileCommands

open CompileCommands

/-- Runs the program on the machine. -/
def main (args : List String) : IO UInt32 := do
  let h ← Machine.bareHost
  let h ← match Invocation.ofArguments args with
    | .ok i => Machine.copyAll i [] h
    | .error _ => pure h
  let exit := Program.run h args
  Machine.saveChanges h exit.host
  (← IO.getStdout).putStr exit.stdout
  (← IO.getStderr).putStr exit.stderr
  return exit.code.toUInt32
