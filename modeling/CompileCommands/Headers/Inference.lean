import CompileCommands.Borrow.Command
import CompileCommands.Include.Search
import CompileCommands.Layers.Complementer
import CompileCommands.Similarity.Score
/-!
# Header inference

Every file that a known command's file includes, directly or through
others, and that has no command itself, borrows one. Inference goes in
rounds. A round scans the files of its frontier; of those that include a
new header, the one most alike lends it its command, the earliest of
them on a tie. The headers found are the frontier of the next round,
ordered by build directory, until a round finds none.

A run is the list of its rounds. What is inferred and what is logged are
both read off the rounds.
-/

namespace CompileCommands

namespace CompileCommand

/-- The canonical paths of the files that the main file includes. -/
def includedFiles (h : Host) (c : CompileCommand) : List Path :=
  (h.includesOf c.normalizedFile).filterMap fun i =>
    i.file? h c.normalizedFile c.searchDirectories

/-- What is logged when the includes of the main file are followed. -/
def scanLines (h : Host) (c : CompileCommand) : List LogLine :=
  h.scanLines c.normalizedFile ++
    (h.includesOf c.normalizedFile).map fun i =>
      i.searchLine h c.normalizedFile c.searchDirectories

end CompileCommand

namespace Inference

/-- A command to scan, with the number of its build directory. -/
structure Source where
  directory : Nat
  command : CompileCommand

/-- A header that a round has found, and the source that is most alike so
far. -/
structure Finding where
  header : Path
  score : Int
  lender : Source

/-- The source that the header becomes. -/
def Finding.source (h : Host) (f : Finding) : Source :=
  ⟨f.lender.directory, f.lender.command.lentTo h f.header⟩

/-- One round: what it scans and what it finds. -/
structure Round where
  frontier : List Source
  findings : List Finding

/-- The findings after a source has been seen including a header. A later
source takes a header over only if it is more alike. -/
def consider : List Finding → Path × Source → List Finding
  | [], (header, s) => [⟨header, s.command.normalizedFile.similarity header, s⟩]
  | f :: fs, (header, s) =>
    if f.header = header then
      let score := s.command.normalizedFile.similarity header
      (if f.score < score then ⟨header, score, s⟩ else f) :: fs
    else f :: consider fs (header, s)

/-- The new headers that a frontier includes, each time with its
includer, in frontier order. -/
def offers (h : Host) (known : List Path) (frontier : List Source) : List (Path × Source) :=
  frontier.flatMap fun s =>
    ((s.command.includedFiles h).filter fun p => p ∉ known).map fun p => (p, s)

/-- The round that scans the given frontier. -/
def round (h : Host) (known : List Path) (frontier : List Source) : Round :=
  ⟨frontier, (offers h known frontier).foldl consider []⟩

/-- What the next round scans. -/
def Round.next (h : Host) (r : Round) : List Source :=
  (r.findings.map (Finding.source h)).mergeSort fun a b => a.directory ≤ b.directory

/-- The rounds of a run, at most the given number. -/
def roundsUpTo (h : Host) : Nat → List Path → List Source → List Round
  | 0, _, _ => []
  | _, _, [] => []
  | n + 1, known, frontier =>
    let r := round h known frontier
    if r.findings.isEmpty then [r]
    else r :: roundsUpTo h n (r.findings.map Finding.header ++ known) (r.next h)

/-- More rounds than there can be. A round that is followed by another
has found a file that can be read under a new path, and such a path is
given by the links it passes and the entry it ends at. -/
def roundLimit (h : Host) : Nat :=
  Nat.pow (h.tree.entries.length + 2) (FileTree.linkLimit + 2)

/-- The rounds of a run. -/
def rounds (h : Host) (known : List Path) (frontier : List Source) : List Round :=
  roundsUpTo h (roundLimit h) known frontier

/-- The commands that rounds have inferred for a build directory. -/
def inferredFor (h : Host) (rs : List Round) (directory : Nat) : List CompileCommand :=
  rs.flatMap fun r =>
    ((r.findings.map (Finding.source h)).filter fun s => s.directory = directory).map
      Source.command

/-- What is logged about rounds, the first of which has the given
number. -/
def logLines (h : Host) : Nat → List Round → List LogLine
  | _, [] => []
  | n, r :: rs =>
    let summary := "header inference round " ++ toString n ++ ": " ++
      toString r.frontier.length ++ " files scanned, " ++
      toString r.findings.length ++ " headers found"
    (r.frontier.flatMap fun s => s.command.scanLines h) ++ ⟨.debug, summary⟩ ::
      logLines h (n + 1) rs

/-- The sources of a layer, by build directory. -/
def sourcesOf : Nat → List (List CompileCommand) → List Source
  | _, [] => []
  | j, cs :: rest => cs.map (Source.mk j) ++ sourcesOf (j + 1) rest

/-- The rounds of a run over layers of commands. -/
def run (h : Host) (layers : List (List (List CompileCommand))) : List Round :=
  rounds h (layers.flatten.flatten.map CompileCommand.normalizedFile)
    (layers.flatMap (sourcesOf 0))

end Inference

/-- The commands of all databases of all layers, or the first failure. -/
def readable : List (List Contents) → Except DbError (List (List (List CompileCommand))) :=
  List.mapM fun l => l.mapM id

/-- The commands inferred for headers, a list for every build directory
of the first layer. -/
def inferHeaders (h : Host) (layers : List (List Contents)) :
    Logged (Except DbError (List (List CompileCommand))) :=
  match readable layers with
  | .error e => .silent (.error e)
  | .ok commands =>
    let rounds := Inference.run h commands
    let count := (layers.head?.getD []).length
    ⟨Inference.logLines h 1 rounds, .ok ((List.range count).map (Inference.inferredFor h rounds))⟩

/-- Whether all databases before the given place can be read. -/
def readableBefore (layers : List (List Contents)) (i j : Nat) : Bool :=
  ((layers.take i).flatten ++ (layers.getD i []).take j).all fun c => c.isOk

/-- The complementer that gives headers the commands of files that
include them. It reads every database, up to one that cannot be read. -/
def Complementer.headers : Complementer := ⟨inferHeaders, readableBefore⟩

end CompileCommands
