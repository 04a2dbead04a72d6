import CompileCommands.Layers.Update
/-!
# Reachable layered databases

The states that a layered database can come to: it starts without
complementers and directories, and goes on by calls in any order, each of
them over whatever file tree it finds. A call that fails leaves the
database as it was.
-/

namespace CompileCommands

namespace LayeredDatabase

/-- A call on a layered database. -/
inductive Call where
  | addComplementer (name : String) (c : Complementer)
  | setStrict (strict : Bool)
  | addDirectory (d : Path)
  | addDirectories (ds : List Path)
  | addPattern (pattern : String)
  | addPatterns (patterns : List String)
  | update
  /-- Listing all files or all commands. -/
  | listAll
  /-- Looking one file up. -/
  | lookUp (p : Path)
  /-- Looking at databases of single layers. -/
  | lookAt (chosen : Nat → Nat → Bool)

/-- The database after a change, or as it was if the change failed. -/
def changed (s : LayeredDatabase) : Except DbError LayeredDatabase → LayeredDatabase
  | .ok s' => s'
  | .error _ => s

/-- The database after a call. -/
def Call.run (h : Host) (s : LayeredDatabase) : Call → LayeredDatabase
  | addComplementer name c => s.changed (s.addComplementer name c)
  | setStrict strict => { s with strict := strict }
  | addDirectory d => s.changed (s.addDirectory h d).value
  | addDirectories ds => s.changed (s.addDirectories h ds).value
  | addPattern pattern => s.changed (s.addPattern h pattern).value
  | addPatterns patterns => s.changed (s.addPatterns h patterns).value
  | update => (s.update h).result.1
  | listAll => s.readAll h
  | lookUp p => s.readFor h p
  | lookAt chosen => { s with layers := readAt h chosen s.layers }

/-- The states that calls lead to. -/
inductive Reachable : LayeredDatabase → Prop
  | new (backends : Backends) : Reachable (LayeredDatabase.new backends)
  | call {s : LayeredDatabase} (h : Host) (c : Call) : Reachable s → Reachable (c.run h s)

/-- A directory whose databases can all be found is added with them. -/
theorem run_addDirectory_of_found {s : LayeredDatabase} {h : Host} {d : Path} {base : Database}
    {ds : List Database} (hbase : (s.backends.probe h d).value = .ok base)
    (hcached : cached h s.strict d s.complementers = .ok ds) :
    (Call.addDirectory d).run h s = s.push ⟨d, base :: ds⟩ := by
  simp [Call.run, addDirectory, commit, probe, Noted.onOk, hbase, hcached, Except.map, changed]

end LayeredDatabase

end CompileCommands
