import CompileCommands.Command
import CompileCommands.Json.Quoted
import CompileCommands.Shell.Quoted
/-!
# Writing a compilation database file

Every command becomes an object of its directory, its command line, its
file and, if it has one, its output, in this order. Objects are set
apart by a comma and an empty line.
-/

namespace CompileCommands

namespace CommandFile

/-- One member of an object, on a line of its own. -/
def member (key value : String) : List Char :=
  [' ', ' '] ++ Json.quoted key ++ [':', ' '] ++ Json.quoted value

/-- The members of a command's object. -/
def members (c : CompileCommand) : List (List Char) :=
  [member "directory" c.directory.text,
    member "command" (Shell.commandLine c.arguments),
    member "file" c.file.text] ++
  (c.output.toList.map fun p => member "output" p.text)

/-- The object of a command. -/
def object (c : CompileCommand) : List Char :=
  ['{', '\n'] ++ List.intercalate [',', '\n'] (members c) ++ ['\n', '}']

/-- The objects of several commands. -/
def objects (cs : List CompileCommand) : List Char :=
  List.intercalate [',', '\n', '\n'] (cs.map object)

/-- The file that holds the given commands. -/
def render (cs : List CompileCommand) : String :=
  String.ofList
    (['[', '\n'] ++ objects cs ++ (if cs.isEmpty then [] else ['\n']) ++ [']', '\n'])

end CommandFile

end CompileCommands
