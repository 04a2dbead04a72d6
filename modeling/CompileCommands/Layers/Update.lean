import CompileCommands.CommandFile.Writer
import CompileCommands.Layers.Registration
/-!
# Recomputing the layers

An update runs the complementers in order. Each one sees the base layer
and the new layers of those before it; what it derives is written to its
cache files, and its new layer is those files, to be read back. If
anything fails, the layers stay what they were, while the cache files
that have been written stay written.
-/

namespace CompileCommands

/-- A step of an update. -/
inductive UpdateEvent where
  /-- A complementer starts. -/
  | started (complementer : String)
  /-- A cache file is about to be written. -/
  | saving (file : Path)
  /-- A complementer's layer is complete. -/
  | finished (complementer : String)
deriving DecidableEq, Repr

/-- What an update tells on its way. -/
inductive UpdateNote where
  | event (e : UpdateEvent)
  | log (line : LogLine)

/-- How a part of an update went: what it told, the host it leaves, and
its result. -/
structure UpdateRun (α : Type) where
  notes : List UpdateNote
  host : Host
  result : α

namespace LayeredDatabase

/-- Writes the commands derived for each directory to the cache files of
a complementer. -/
def saveAll (c : NamedComplementer) :
    Host → List (List CompileCommand × Path) → UpdateRun (Option DbError)
  | h, [] => ⟨[], h, none⟩
  | h, (commands, directory) :: rest =>
    let file := c.cacheFile directory
    let saving : UpdateNote := .event (.saving file)
    match h.write file (CommandFile.render commands).toUTF8 with
    | .error e => ⟨[saving], h, some (.io file e)⟩
    | .ok h =>
      let run := saveAll c h rest
      ⟨saving :: run.notes, run.host, run.result⟩

/-- The layer that is read from the cache files of a complementer. -/
def cacheLayer (c : NamedComplementer) (directories : List Path) : Layer :=
  directories.map fun d => .json (c.cacheFile d) none

/-- Builds the layers of the complementers on the given ones, and tells
what went wrong, if anything did. -/
def recompute (directories : List Path) :
    Host → List Layer → List NamedComplementer → UpdateRun (List Layer × Option DbError)
  | h, layers, [] => ⟨[], h, (layers, none)⟩
  | h, layers, c :: cs =>
    let seen := contents h layers
    let derived := c.complementer.derive h seen
    let layers := readAt h (c.complementer.reads seen) layers
    let notes := .event (.started c.name) :: derived.notes.map UpdateNote.log
    match derived.value with
    | .error e => ⟨notes, h, (layers, some e)⟩
    | .ok commands =>
      if commands.length ≠ directories.length then
        ⟨notes, h, (layers, some (.layerCount c.name directories.length commands.length))⟩
      else
        let saved := saveAll c h (commands.zip directories)
        let notes := notes ++ saved.notes
        match saved.result with
        | some e => ⟨notes, saved.host, (layers, some e)⟩
        | none =>
          let run := recompute directories saved.host (layers ++ [cacheLayer c directories]) cs
          ⟨notes ++ .event (.finished c.name) :: run.notes, run.host, run.result⟩

/-- Recomputes the layer of every complementer. -/
def update (h : Host) (s : LayeredDatabase) : UpdateRun (LayeredDatabase × Option DbError) :=
  let run := recompute s.directories h (s.layers.take 1) s.complementers
  let (layers, failure) := run.result
  match failure with
  | none => ⟨run.notes, run.host, ({ s with layers := layers }, none)⟩
  | some e =>
    ⟨run.notes, run.host, ({ s with layers := layers.take 1 ++ s.layers.drop 1 }, some e)⟩

end LayeredDatabase

end CompileCommands
