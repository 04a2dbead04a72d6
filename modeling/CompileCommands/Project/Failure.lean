import CompileCommands.Config.Variable
import CompileCommands.Database.Error
import CompileCommands.Project.Suppression
/-!
# What goes wrong in a run

The causes for which a run does not reach its answer, and their wording.
-/

namespace CompileCommands

/-- Why a run fails. -/
inductive Failure where
  | config (e : ConfigError)
  | database (e : DbError)
  | suppression (e : BadSuppression)
  /-- A file of suppressions cannot be read. -/
  | unreadable (file : Path) (e : IoError)
  /-- Nothing exists where the files of a project should be. -/
  | missingRoot (root : Path)
  /-- No complementer has the configured name. -/
  | unknownComplementer (name : String)
  /-- There is no build directory to update. -/
  | noBuildDirectory
  /-- There is no home directory. -/
  | noUserDirectory
deriving DecidableEq, Repr

/-- The wording of a failure. -/
def Failure.message : Failure → String
  | config e => e.message
  | database e => e.message
  | suppression e => e.message
  | unreadable f e => "cannot read " ++ f.text ++ ": " ++ e.message
  | missingRoot p => p.text ++ ": no such file or directory"
  | unknownComplementer n => "unknown complementer: " ++ n
  | noBuildDirectory => "no build directory configured"
  | noUserDirectory => "cannot determine the user configuration directory"

end CompileCommands
