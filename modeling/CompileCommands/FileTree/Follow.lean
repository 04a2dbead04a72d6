import CompileCommands.FileTree.Basic
/-!
# Following a path through a file tree

A path is followed piece by piece from a directory, unlike the folding
of `Place`: every piece but the last has to lead through an existing
directory, `..` goes to the directory above the one reached, and a
symbolic link is replaced by its target. A path may pass at most
`linkLimit` links.
-/

namespace CompileCommands

/-- Why a path cannot be followed or what it leads to cannot be used. -/
inductive IoError where
  | notFound
  | notDirectory
  | isDirectory
  | tooManyLinks
  | nulInName
  | notUtf8
  | other (reason : String)
deriving DecidableEq, Repr

/-- The wording of an error. -/
def IoError.message : IoError → String
  | notFound => "No such file or directory (os error 2)"
  | notDirectory => "Not a directory (os error 20)"
  | isDirectory => "Is a directory (os error 21)"
  | tooManyLinks => "Too many levels of symbolic links (os error 40)"
  | nulInName => "file name contained an unexpected NUL byte"
  | notUtf8 => "stream did not contain valid UTF-8"
  | other reason => reason

/-- Where a path leads: to an entry, or to a name that an existing
directory does not hold. -/
inductive Spot where
  | taken (location : Location) (entry : Entry)
  | vacant (location : Location)

namespace FileTree

/-- How many links a path may pass. -/
def linkLimit : Nat := 40

/-- Follows the pieces of a path from the directory `at`, passing at most
`links` links. -/
def follow (t : FileTree) (links : Nat) (dir : Location) :
    List (List Char) → Except IoError Spot
  | [] => .ok (.taken dir .directory)
  | piece :: rest =>
    match Component.ofPiece? piece with
    | some (.name n) =>
      let l := dir ++ [n]
      match t.entry? l with
      | none => if rest.isEmpty then .ok (.vacant l) else .error .notFound
      | some .directory => t.follow links l rest
      | some (.file c) =>
        if rest.isEmpty then .ok (.taken l (.file c)) else .error .notDirectory
      | some (.link target) =>
        match links with
        | 0 => .error .tooManyLinks
        | links + 1 =>
          let onwards := Text.fields (· == '/') target.chars ++ rest
          t.follow links (if target.isAbsolute then [] else dir) onwards
    | some .parent => t.follow links dir.dropLast rest
    | _ => t.follow links dir rest
termination_by ps => (links, ps.length)

end FileTree

end CompileCommands
