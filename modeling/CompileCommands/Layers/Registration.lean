import CompileCommands.DirectoryPattern
import CompileCommands.Layers.Basic
/-!
# Adding complementers and build directories

A build directory is added with the base database found in it and, for
every complementer, the database in its cache file. Several directories,
and the directories of several patterns, are added together or not at
all. Of the directories that a pattern names, those without a base
database are passed over, but one has to remain.
-/

namespace CompileCommands

/-- Goes on from a value if there is one, after its notes. -/
def Noted.onOk {ν ε α β : Type} (x : Noted ν (Except ε α)) (f : α → Noted ν (Except ε β)) :
    Noted ν (Except ε β) :=
  x.andThen fun r =>
    match r with
    | .error e => .silent (.error e)
    | .ok a => f a

/-- The databases found for a build directory, base first. -/
structure ProbedDirectory where
  directory : Path
  databases : List Database

namespace LayeredDatabase

/-- The database with one more complementer, whose layer is empty. -/
def addComplementer (s : LayeredDatabase) (name : String) (c : Complementer) :
    Except DbError LayeredDatabase :=
  (NamedComplementer.of name c).map fun n =>
    { s with
      complementers := s.complementers ++ [n]
      layers := s.layers ++ [s.directories.map fun _ => .memory []] }

/-- The databases in a directory's cache files. A missing one counts as
empty, unless the database is strict. -/
def cached (h : Host) (strict : Bool) (directory : Path) :
    List NamedComplementer → Except DbError (List Database)
  | [] => .ok []
  | c :: cs =>
    let file := c.cacheFile directory
    if h.isFile file then (cached h strict directory cs).map (.json file none :: ·)
    else if strict then .error (.cacheMissing c.name directory)
    else (cached h strict directory cs).map (.memory [] :: ·)

/-- The databases of a build directory. -/
def probe (h : Host) (s : LayeredDatabase) (directory : Path) :
    Logged (Except DbError ProbedDirectory) :=
  (s.backends.probe h directory).onOk fun base =>
    .silent ((cached h s.strict directory s.complementers).map fun ds => ⟨directory, base :: ds⟩)

/-- The databases of several build directories. -/
def probeEach (h : Host) (s : LayeredDatabase) :
    List Path → Logged (Except DbError (List ProbedDirectory))
  | [] => .silent (.ok [])
  | d :: ds =>
    (s.probe h d).onOk fun p => (s.probeEach h ds).onOk fun ps => .silent (.ok (p :: ps))

/-- The databases of those directories of a pattern that have one. -/
def probeFound (h : Host) (s : LayeredDatabase) (pattern : String) :
    List Path → Logged (Except DbError (List ProbedDirectory))
  | [] => .silent (.ok [])
  | d :: ds =>
    (s.probe h d).andThen fun r =>
      match r with
      | .ok p => (s.probeFound h pattern ds).onOk fun ps => .silent (.ok (p :: ps))
      | .error (.noDatabase x) =>
        let line := pattern ++ ": skipping " ++ d.text ++ ": " ++ (DbError.noDatabase x).message
        (⟨[⟨.debug, line⟩], ()⟩ : Logged Unit).andThen fun _ => s.probeFound h pattern ds
      | .error e => .silent (.error e)

/-- The databases of the directories that a pattern names. -/
def probePattern (h : Host) (s : LayeredDatabase) (pattern : String) :
    Logged (Except DbError (List ProbedDirectory)) :=
  match DirectoryPattern.expand h pattern with
  | .error e => .silent (.error e)
  | .ok ds =>
    (s.probeFound h pattern ds).onOk fun ps =>
      .silent (if ps.isEmpty then .error (.noneMatched pattern) else .ok ps)

/-- The databases of the directories that several patterns name. -/
def probePatterns (h : Host) (s : LayeredDatabase) :
    List String → Logged (Except DbError (List ProbedDirectory))
  | [] => .silent (.ok [])
  | p :: ps =>
    (s.probePattern h p).onOk fun ds =>
      (s.probePatterns h ps).onOk fun es => .silent (.ok (ds ++ es))

/-- The layers with one more database each. -/
def pushEach : List Layer → List Database → List Layer
  | l :: ls, d :: ds => (l ++ [d]) :: pushEach ls ds
  | ls, _ => ls

/-- The database with one more build directory. -/
def push (s : LayeredDatabase) (p : ProbedDirectory) : LayeredDatabase :=
  { s with
    layers := pushEach s.layers p.databases
    directories := s.directories ++ [p.directory] }

/-- The database with what has been found, if all went well. -/
def commit (s : LayeredDatabase) (found : Logged (Except DbError (List ProbedDirectory))) :
    Logged (Except DbError LayeredDatabase) :=
  found.onOk fun ps => .silent (.ok (ps.foldl push s))

/-- The database with one more build directory. -/
def addDirectory (h : Host) (s : LayeredDatabase) (d : Path) :
    Logged (Except DbError LayeredDatabase) :=
  s.commit ((s.probe h d).onOk fun p => .silent (.ok [p]))

/-- The database with several more build directories. -/
def addDirectories (h : Host) (s : LayeredDatabase) (ds : List Path) :
    Logged (Except DbError LayeredDatabase) :=
  s.commit (s.probeEach h ds)

/-- The database with the directories of a pattern. -/
def addPattern (h : Host) (s : LayeredDatabase) (pattern : String) :
    Logged (Except DbError LayeredDatabase) :=
  s.commit (s.probePattern h pattern)

/-- The database with the directories of several patterns. -/
def addPatterns (h : Host) (s : LayeredDatabase) (patterns : List String) :
    Logged (Except DbError LayeredDatabase) :=
  s.commit (s.probePatterns h patterns)

end LayeredDatabase

end CompileCommands
