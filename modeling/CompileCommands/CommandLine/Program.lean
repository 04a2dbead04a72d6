import CompileCommands.CommandLine.Arguments
import CompileCommands.CommandLine.Run
/-!
# The program

What the program writes to its two streams and returns for its arguments.
Results go to the standard output; messages and those log lines that are
severe enough go to the standard error, in the order in which they arise.
A failure is the last line there. The exit code is 0 or 1, as the task
decides, 1 after a failure, and 2 if the arguments are refused.
-/

namespace CompileCommands

namespace Output

/-- A log line as it is shown, its severity right-aligned in five
columns. -/
def logText (l : LogLine) : String :=
  let label := l.severity.label
  String.ofList (List.replicate (5 - label.length) ' ') ++ label ++ " " ++ l.message ++ "\n"

/-- What goes to the standard output. -/
def results (outputs : List Output) : String :=
  String.join (outputs.map fun o =>
    match o with
    | .result text => text
    | _ => "")

/-- What goes to the standard error. Log lines are shown from the given
severity on; without one, none are. -/
def messages (least : Option Severity) (outputs : List Output) : String :=
  String.join (outputs.map fun o =>
    match o with
    | .result _ => ""
    | .message text => text
    | .log l => if least.any fun s => s.rank ≤ l.severity.rank then logText l else "")

/-- The log lines. -/
def logLines (outputs : List Output) : List LogLine :=
  outputs.filterMap fun o =>
    match o with
    | .log l => some l
    | _ => none

end Output

/-- How the program ends: the host it leaves, what it has written to the
standard output and to the standard error, and its exit code. -/
structure Exit where
  host : Host
  stdout : String
  stderr : String
  code : Nat

namespace Program

/-- How the program is used. -/
def usageLines : List String :=
  ["Usage: compdb [OPTIONS] <COMMAND>",
   "",
   "Commands:",
   "  list [-u] [FILES]...             Print compile commands",
   "  update                           Recompute the complementer caches",
   "  check [OPTIONS] [PATHS]...       Report files missing from the databases",
   "  scan-files [OPTIONS] [PATHS]...  Print C and C++ files",
   "  config <QUERY>                   Inspect the configuration",
   "  version [--short]                Print the version",
   "  help [COMMAND]...                Print this text",
   "",
   "Options:",
   "  -q, --quiet                      Print errors only",
   "  -v, --verbose                    Print debug messages",
   "  -c <NAME[=VALUE]>                Set a configuration variable",
   "  -h, --help                       Print this text",
   "  -V, --version                    Print the version",
   "",
   "Options of check and scan-files:",
   "  -g, --groups <GROUPS>            File groups: source, header",
   "  --suppress <PATTERN>             Ignore missing files (check)",
   "  --suppressions <FILE>            Read such patterns from a file (check)",
   "",
   "Queries: print-user-conf, print-local-conf, list, dump, get <KEY>"]

/-- How the program is used, as one text. -/
def usage : String := String.join (usageLines.map fun l => l ++ "\n")

/-- What is wrong with the arguments. -/
def refusalText : Refusal → String
  | .help | .version | .nothingAsked => ""
  | .missingCommand => "error: a command is required\n\n"
  | .unknownCommand => "error: unknown command\n\n"
  | .unknownArgument => "error: unexpected argument\n\n"
  | .invalidValue => "error: invalid or missing value\n\n"
  | .missingValue => "error: a required argument is missing\n\n"
  | .repeatedFlag => "error: a flag is given twice\n\n"
  | .unneededValue => "error: a flag takes no value\n\n"

/-- How the program ends if it runs nothing. -/
def refuse (h : Host) (r : Refusal) : Exit :=
  match r with
  | .help => ⟨h, usage, "", 0⟩
  | .version => ⟨h, "compdb " ++ Session.versionNumber ++ "\n", "", 0⟩
  | r => ⟨h, "", refusalText r ++ usage, 2⟩

/-- How the program ends after an invocation. -/
def conclude (i : Invocation) (r : RunResult) : Exit :=
  let stderr := Output.messages (some (Invocation.leastSeverity i.quiet i.verbose)) r.outputs
  let stdout := Output.results r.outputs
  match r.result with
  | .ok code => ⟨r.host, stdout, stderr, code⟩
  | .error e => ⟨r.host, stdout, stderr ++ "error: " ++ e.message ++ "\n", 1⟩

/-- Runs the program. -/
def run (h : Host) (args : List String) : Exit :=
  match Invocation.ofArguments args with
  | .error r => refuse h r
  | .ok i => conclude i (i.run h)

end Program

end CompileCommands
