import CompileCommands.Project.Files
/-!
# Invocations

What a command line asks for once it has been understood: the task, and
the settings that hold for every task. A command line that asks for
nothing to be run, or cannot be understood, is refused for one of a few
causes.
-/

namespace CompileCommands

/-- A question about the configuration. -/
inductive ConfigQuery where
  /-- Where the user's configuration file is. -/
  | userFile
  /-- Where the project's configuration file is. -/
  | localFile
  /-- Which keys there are. -/
  | keys
  /-- What the effective configuration is. -/
  | dump
  /-- What the value of a key is. -/
  | get (key : String)
deriving DecidableEq, Repr

/-- What a run has to do. -/
inductive Task where
  /-- Print the commands for the files, or all if there are none. -/
  | list (unique : Bool) (files : List Path)
  /-- Recompute the cache files of the complementers. -/
  | update
  /-- Compare the database with the files of the project. -/
  | check (roots : List Path) (groups : List FileGroup) (suppressions : List String)
      (suppressionFiles : List Path)
  /-- Print the files of the project. -/
  | scanFiles (roots : List Path) (groups : List FileGroup)
  | config (query : ConfigQuery)
  | version (short : Bool)
deriving DecidableEq, Repr

/-- A command line that has been understood. -/
structure Invocation where
  quiet : Bool
  verbose : Bool
  /-- The configuration variables that are set, as they are written. -/
  settings : List String
  task : Task
deriving DecidableEq, Repr

/-- Why nothing is run. -/
inductive Refusal where
  /-- Help is asked for. -/
  | help
  /-- The version is asked for by a flag. -/
  | version
  /-- There is nothing on the command line where a command is needed. -/
  | nothingAsked
  /-- There are only flags where a command is needed. -/
  | missingCommand
  | unknownCommand
  | unknownArgument
  | invalidValue
  | missingValue
  /-- A flag is given twice. -/
  | repeatedFlag
  /-- A flag is given a value. -/
  | unneededValue
deriving DecidableEq, Repr

end CompileCommands
