import CompileCommands.Text.Blank
/-!
# Quoted arguments

How an argument vector is written as one command line. A backslash and a
double quote are escaped wherever they stand; an argument is put between
double quotes when it is empty, starts with `#`, or holds a blank or a
single quote.
-/

namespace CompileCommands

namespace Shell

/-- The characters with a backslash before each `\` and `"`. -/
def escape : List Char → List Char
  | [] => []
  | c :: cs => if c = '\\' ∨ c = '"' then '\\' :: c :: escape cs else c :: escape cs

/-- Whether an argument has to stand between quotes. -/
def needsQuotes (cs : List Char) : Bool :=
  cs.isEmpty || cs.head? == some '#' || cs.any fun c => Text.isBlank c || c == '\''

/-- One argument as it is written. -/
def quote (cs : List Char) : List Char :=
  if needsQuotes cs then '"' :: (escape cs ++ ['"']) else escape cs

/-- The argument vector as one command line. -/
def commandLine (arguments : List String) : String :=
  String.ofList (List.intercalate [' '] (arguments.map fun a => quote a.toList))

end Shell

end CompileCommands
