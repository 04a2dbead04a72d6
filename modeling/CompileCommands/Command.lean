import CompileCommands.Path.Place
/-!
# Compile commands

One call of a compiler: where it runs, the main file as it was written,
and every argument with the compiler itself in front. Inside a database
a command is identified by its normalized file.
-/

namespace CompileCommands

/-- One call of a compiler. -/
structure CompileCommand where
  directory : Path
  file : Path
  arguments : List String
  output : Option Path
deriving DecidableEq, Repr

namespace CompileCommand

/-- The canonical path of the main file. -/
def normalizedFile (c : CompileCommand) : Path := Path.normalizeIn c.directory c.file

/-- Whether two commands agree, up to the spelling of their paths. -/
def same (a b : CompileCommand) : Bool :=
  a.directory.same b.directory && a.file.same b.file && a.arguments == b.arguments &&
    match a.output, b.output with
    | none, none => true
    | some p, some q => p.same q
    | _, _ => false

end CompileCommand

end CompileCommands
