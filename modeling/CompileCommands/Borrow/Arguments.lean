import CompileCommands.Command
import CompileCommands.Path.Parts
/-!
# Reusable arguments

Which arguments of a command can serve for another file: all but those
that name the main file or the output, up to a `--`. Among them are the
directories that the command searches for included files.
-/

namespace CompileCommands

/-- What follows a beginning of a text. -/
def Text.after? (start cs : List Char) : Option (List Char) :=
  if start.isPrefixOf cs then some (cs.drop start.length) else none

namespace CompileCommand

/-- The end that every spelling of the main file has: its extension with
the dot. -/
def fileSuffix (c : CompileCommand) : List Char :=
  match c.file.extension? with
  | some ext => '.' :: ext.toList
  | none => []

/-- Whether an argument names the main file. -/
def isMainFile (c : CompileCommand) (argument : String) : Bool :=
  c.fileSuffix.isSuffixOf argument.toList &&
    Path.normalizeIn c.directory ⟨argument⟩ == c.normalizedFile

/-- The arguments without the main file, the output, `-c`, and all from a
`--` on. -/
def reusable (isMain : String → Bool) : List String → List String
  | [] => []
  | a :: rest =>
    if a = "--" then []
    else if a = "-c" then reusable isMain rest
    else if a = "-o" then
      match rest with
      | [] => []
      | _ :: rest => reusable isMain rest
    else if ['-', 'o'].isPrefixOf a.toList || isMain a then reusable isMain rest
    else a :: reusable isMain rest

/-- The arguments of the command that are not tied to its main file. -/
def reusableArguments (c : CompileCommand) : List String := reusable c.isMainFile c.arguments

/-- The directories that `-I` arguments name, in one argument or in
two. -/
def namedDirectories : List String → List String
  | [] => []
  | a :: rest =>
    match Text.after? ['-', 'I'] a.toList with
    | none => namedDirectories rest
    | some [] =>
      match rest with
      | [] => []
      | d :: rest => d :: namedDirectories rest
    | some d => String.ofList d :: namedDirectories rest

/-- The directories in which the command searches for included files, in
order. -/
def searchDirectories (c : CompileCommand) : List Path :=
  (namedDirectories c.reusableArguments).map fun d => c.directory.join ⟨d⟩

end CompileCommand

end CompileCommands
