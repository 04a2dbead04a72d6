import CompileCommands.CommandLine.Run
/-!
# What a run looks at

A run sees only a small part of the machine. `Invocation.looks` gives, for
a host that may not hold everything yet, the paths that the run asks it
about, and a little more. A host that holds all it is asked about answers
as the whole machine does, so a machine can be copied into a host step by
step: look, copy what has been looked at, and look again until nothing new
comes up.
-/

namespace CompileCommands

/-- A question about the machine. -/
inductive Look where
  /-- What a path leads to. -/
  | at (p : Path)
  /-- Which entries a directory has. -/
  | names (p : Path)
  /-- Everything below a directory. -/
  | below (p : Path)
deriving DecidableEq, Repr

namespace Session

/-- The possible places of configuration files. -/
def configLooks (s : Session) : List Look :=
  let places := (s.host.absolutePath s.directory).ancestors.map fun d =>
    d.join ⟨Host.localConfigName⟩
  (s.host.userConfig?.toList ++ places).map Look.at

/-- What is looked at when a pattern is expanded: the directories that its
first components lead to, for any number of them. -/
def patternLooks (s : Session) (pattern : String) : List Look :=
  let whole : Path := ⟨String.ofList (DirectoryPattern.trimmed pattern)⟩
  let start : List Look := [.at whole]
  (List.range whole.components.length).foldl (fun looks k =>
    match DirectoryPattern.follow s.host pattern [.empty] (whole.components.take k) with
    | .ok ds => looks ++ ds.map fun d => .names (DirectoryPattern.onHost d)
    | .error _ => looks) start

/-- The files of build directories: the databases and the caches. -/
def databaseLooks (directories : List Path) (complementers : List String) : List Look :=
  directories.flatMap fun d =>
    .at (d.join ⟨"compile_commands.json"⟩) ::
      complementers.map fun c => .at (d.join ⟨c ++ ".json"⟩)

/-- The files that a command's file includes, directly or through others,
at all places where they may be. -/
def includeLooks (s : Session) (c : CompileCommand) : List Look :=
  (IncludeGraph.walkAll s.host [] [c]).reached.flatMap fun f =>
    .at f :: (s.host.includesOf f).flatMap fun i =>
      (i.places f c.searchDirectories).map fun d => .at (d.join ⟨i.name⟩)

/-- What is looked at in the project of a configuration. -/
def projectLooks (s : Session) (includes : Bool) (c : Config) : List Look :=
  let directories := (c.buildDirectories.map fun p =>
    (DirectoryPattern.expand s.host p).toOption.getD []).flatten
  let commands := ((Project.ofConfig s.host c false).value.toOption.bind fun p =>
    (p.commands s.host false).toOption).getD []
  c.buildDirectories.flatMap s.patternLooks ++ databaseLooks directories c.complementers ++
    if includes then commands.flatMap s.includeLooks else []

/-- What is looked at for the configuration and the project. -/
def looks (s : Session) (includes : Bool) : List Look :=
  s.configLooks ++ ((s.config.value.toOption.map (s.projectLooks includes)).getD [])

/-- The roots of a project. -/
def rootLooks (s : Session) (roots : List Path) : List Look :=
  roots.map fun p => .below (s.host.logicalPath p)

/-- What is looked at for a task. -/
def taskLooks (s : Session) : Task → List Look
  | .list _ files => s.looks (!files.isEmpty)
  | .update => s.looks true
  | .check roots _ _ files => files.map Look.at ++ s.looks false ++ s.rootLooks roots
  | .scanFiles roots _ => s.rootLooks roots
  | .config _ => s.configLooks
  | .version _ => []

end Session

/-- What an invocation looks at. -/
def Invocation.looks (h : Host) (i : Invocation) : List Look :=
  let logical := h.logicalDirectory.toList.map fun d => Look.at ⟨d⟩
  match i.settings.mapM Override.ofText with
  | .error _ => []
  | .ok overrides => logical ++ Session.taskLooks ⟨h, overrides, h.logicalPath ⟨"."⟩⟩ i.task

end CompileCommands
