import CompileCommands.CommandFile.Record
import CompileCommands.FileTree.Follow
import CompileCommands.Glob.Reader
/-!
# What goes wrong with databases

The causes for which a database cannot be found, read, layered or
written, and their wording.
-/

namespace CompileCommands

/-- Why an operation on databases fails. -/
inductive DbError where
  /-- No backend recognises the directory. -/
  | noDatabase (directory : Path)
  /-- No directory that the pattern matches holds a database. -/
  | noneMatched (pattern : String)
  /-- A component of the pattern is no glob. -/
  | badPattern (pattern component : String) (fault : GlobFault)
  /-- A directory lacks the cache file of a complementer. -/
  | cacheMissing (complementer : String) (directory : Path)
  /-- A complementer cannot be called that. -/
  | badName (name : String)
  /-- A complementer has not given one database per directory. -/
  | layerCount (complementer : String) (expected actual : Nat)
  /-- A record of a file stands for no command. -/
  | badRecord (file : Path) (index : Nat) (gap : CommandFile.Gap)
  /-- A file is not the JSON it has to be. -/
  | badJson (file : Path) (fault : Json.Fault)
  /-- A file cannot be read or written. -/
  | io (path : Path) (error : IoError)
deriving DecidableEq, Repr

/-- What is wrong with a JSON text. -/
def Json.Fault.reason : Json.Fault → String
  | malformed => "invalid syntax"
  | mismatched => "unexpected value"
  | truncated => "unexpected end of input"
  | unreadable => "unreadable input"

/-- The wording of an error. -/
def DbError.message : DbError → String
  | noDatabase d => d.text ++ ": no compilation database found"
  | noneMatched p => p ++ ": no compilation databases found"
  | badPattern p c f => "invalid directory pattern '" ++ p ++ "': " ++ f.message c
  | cacheMissing c d =>
    "could not find '" ++ c ++ "' complementer in '" ++ d.text ++ "', run 'compdb update'"
  | badName n => "invalid complementer name: '" ++ n ++ "'"
  | layerCount c expected actual =>
    "complementer '" ++ c ++ "' returned " ++ toString actual ++ " database(s) for " ++
      toString expected ++ " build directories"
  | badRecord f i g => "malformed entry #" ++ toString i ++ " in " ++ f.text ++ ": " ++ g.message
  | badJson f e => "failed to parse " ++ f.text ++ ": " ++ e.reason
  | io p e => "I/O error at " ++ p.text ++ ": " ++ e.message

end CompileCommands
