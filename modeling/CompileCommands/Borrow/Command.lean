import CompileCommands.Borrow.Arguments
import CompileCommands.Host.Paths
/-!
# Borrowed commands

A file without a command of its own borrows one: it is compiled in the
same directory and with the same reusable arguments, and it is named the
way the lender names its own file, absolute or relative.
-/

namespace CompileCommands

/-- The path `p` spelled the way `model` is, for a command that runs in
`directory`. -/
def Path.spelledLike (h : Host) (p model directory : Path) : Path :=
  if model.isAbsolute then directory.join p
  else if p.isAbsolute then h.relativePath p directory
  else p

/-- The command for `file` that borrows from `c`. -/
def CompileCommand.lentTo (h : Host) (c : CompileCommand) (file : Path) : CompileCommand :=
  let file := file.spelledLike h c.file c.directory
  { directory := c.directory
    file := file
    arguments := c.reusableArguments ++ ["-c", file.text]
    output := none }

end CompileCommands
