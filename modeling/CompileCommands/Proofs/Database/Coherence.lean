import CompileCommands.Proofs.CommandFile.RoundTrip
import CompileCommands.Proofs.Database.Reading
import CompileCommands.Proofs.Database.Snapshot
/-!
# All databases answer coherently

However a database is put together, its three answers are three views of
one list of commands, or there is none of them: then the first file that
cannot be loaded is to blame, and each answer is what is wrong with it
(`commands_eq_error`, `find_eq_error`). Reading changes none of this
(`map_reply_history`). So nothing about a part but its commands shows in
what it is a part of (`commands_fill`), and a list of commands can be
kept in memory or in the file written from it.
-/

namespace CompileCommands

variable {h : Host} {d : Database} {p : Path} {e : DbError} {q : Question}

namespace Database

/-! ## The first fault -/

/-- What has gone wrong, if anything has. -/
def fault? {α : Type} : Except DbError α → Option DbError
  | .error e => some e
  | .ok _ => none

/-- What is wrong with the first file, of those that have not been read,
that cannot be loaded. -/
def firstFault? (h : Host) (d : Database) : Option DbError :=
  d.unread.findSome? fun file => fault? (CommandFile.load h file)

theorem fault?_eq_some {α : Type} {x : Except DbError α} : fault? x = some e ↔ x = .error e := by
  cases x <;> simp [fault?]

theorem fault?_map {α β : Type} (f : α → β) (x : Except DbError α) :
    fault? (x.map f) = fault? x := by
  cases x <;> rfl

/-- Of two answers the first that fails is to blame. -/
theorem fault?_chain {α : Type} (a b : Except DbError (List α)) :
    fault? (chain a b) = (fault? a).or (fault? b) := by
  cases a with
  | error e => rfl
  | ok xs => exact fault?_map ..

mutual

/-- **The commands of a database** are missing for the first fault. -/
theorem fault?_commands (h : Host) : ∀ d : Database, fault? (d.commands h) = d.firstFault? h
  | null => rfl
  | memory _ => rfl
  | json _ (some _) => rfl
  | json file none => by
    rw [commands, fileCommands, firstFault?, unread, List.findSome?_singleton]
  | aggregate parts => fault?_commandsAll h parts

theorem fault?_commandsAll (h : Host) : ∀ ds : List Database, fault? (commandsAll h ds) =
    (unreadAll ds).findSome? fun file => fault? (CommandFile.load h file)
  | [] => rfl
  | d :: ds => by
    rw [commandsAll, fault?_chain, fault?_commands h d, fault?_commandsAll h ds, unreadAll,
      List.findSome?_append]
    rfl

end

mutual

/-- **The commands for a file** are missing where all commands are. -/
theorem fault?_find (h : Host) (p : Path) : ∀ d : Database,
    fault? (d.find h p) = fault? (d.commands h)
  | null => rfl
  | memory _ => rfl
  | json _ _ => fault?_map ..
  | aggregate parts => fault?_findAll h p parts

theorem fault?_findAll (h : Host) (p : Path) : ∀ ds : List Database,
    fault? (findAll h p ds) = fault? (commandsAll h ds)
  | [] => rfl
  | d :: ds => by
    rw [findAll, commandsAll, fault?_chain, fault?_chain, fault?_find h p d,
      fault?_findAll h p ds]

end

theorem commands_eq_error : d.commands h = .error e ↔ d.firstFault? h = some e := by
  rw [← fault?_eq_some, fault?_commands]

theorem find_eq_error : d.find h p = .error e ↔ d.firstFault? h = some e := by
  rw [← fault?_eq_some, fault?_find, fault?_commands]

/-! ## What the answers are -/

/-- Whether all questions to a database fail for the reason `e`. -/
structure Fails (h : Host) (d : Database) (e : DbError) : Prop where
  commands : d.commands h = .error e
  files : d.files h = .error e
  find : ∀ p, d.find h p = .error e

/-- Whether all questions to a database are answered from the commands
`cs`: with all of them, with the files that they compile, or with those
of them that compile the file asked for. -/
structure AnswersFrom (h : Host) (d : Database) (cs : List CompileCommand) : Prop where
  commands : d.commands h = .ok cs
  files : d.files h = .ok (cs.map CompileCommand.normalizedFile)
  find : ∀ p, ∃ found, d.find h p = .ok found ∧ (p.isAbsolute = true →
    found = cs.filter fun c => c.normalizedFile == p.normalize)

/-- **The first fault is everyone's.** -/
theorem fails_of_firstFault? (he : d.firstFault? h = some e) : d.Fails h e where
  commands := commands_eq_error.2 he
  files := by rw [files_eq_map_commands, commands_eq_error.2 he]; rfl
  find _ := find_eq_error.2 he

/-- **Without a fault there is an answer to everything.** -/
theorem exists_answersFrom (hnone : d.firstFault? h = none) : ∃ cs, d.AnswersFrom h cs := by
  cases hcs : d.commands h with
  | error e =>
    rw [commands_eq_error.1 hcs] at hnone
    cases hnone
  | ok cs =>
    refine ⟨cs, hcs, by rw [files_eq_map_commands, hcs]; rfl, fun p => ?_⟩
    cases hfound : d.find h p with
    | error e =>
      rw [find_eq_error.1 hfound] at hnone
      cases hnone
    | ok found =>
      refine ⟨found, rfl, fun hp => ?_⟩
      rw [find_of_isAbsolute hp, hcs] at hfound
      exact (Except.ok.inj hfound).symm

/-! ## One question after another -/

/-- **A question changes no answer.** -/
theorem reply_read (h : Host) (d : Database) (q : Question) :
    (d.read h).reply h q = d.reply h q := by
  cases q with
  | find p => rw [reply, reply, find_read]
  | files => rw [reply, reply, files_eq_map_commands, files_eq_map_commands, commands_read]
  | commands => rw [reply, reply, commands_read]

/-- **Nor do many.** -/
theorem map_reply_history (h : Host) (d : Database) (qs : List Question) :
    (history h d (qs.map .ask)).map Exchange.reply = qs.map (d.reply h) := by
  induction qs generalizing d with
  | nil => rfl
  | cons q qs ih =>
    have hread : (d.read h).reply h = d.reply h := funext (reply_read h d)
    rw [List.map_cons, history_ask, List.map_cons, ih, hread, List.map_cons]

/-! ## Parts that can be exchanged -/

/-- A database with one part left open, at any depth. -/
inductive Nesting where
  | here
  | among (before : List Database) (inner : Nesting) (after : List Database)

/-- The database with the given part. -/
def Nesting.fill : Nesting → Database → Database
  | here, d => d
  | among before inner after, d => aggregate (before ++ inner.fill d :: after)

/-- **Of a part only its commands count.** -/
theorem commands_fill {d' : Database} (hcs : d.commands h = d'.commands h) (n : Nesting) :
    (n.fill d).commands h = (n.fill d').commands h := by
  induction n with
  | here => exact hcs
  | among before inner after ih =>
    change commandsAll h (before ++ inner.fill d :: after) =
      commandsAll h (before ++ inner.fill d' :: after)
    rw [commandsAll_append, commandsAll_append, commandsAll, commandsAll, ih]

end Database

/-- Whether a question does not depend on the working directory. -/
def Question.IsAbsolute : Question → Prop
  | find p => p.isAbsolute = true
  | _ => True

namespace Database

/-- Every such question is answered from the commands. -/
theorem reply_eq_map_commands (hq : q.IsAbsolute) (d : Database) :
    d.reply h q = (d.commands h).map (q.answer h) := by
  cases q with
  | find p =>
    have hp : p.isAbsolute = true := hq
    rw [reply, find_of_isAbsolute hp]
    cases d.commands h with
    | error e => rfl
    | ok cs =>
      change Except.ok (Found.commands (matching p.normalize cs)) = .ok (.commands _)
      rw [Host.logicalPath, if_pos hp]
  | files =>
    rw [reply, files_eq_map_commands]
    cases d.commands h <;> rfl
  | commands =>
    rw [reply]
    cases d.commands h <;> rfl

/-- **All databases answer coherently.** Either no file that still has to
be read is faulty, and there are commands that all questions are answered
from, or all questions fail for the first faulty file; and this stays so
whatever is asked. Hence commands in memory and the file written from
them answer alike as a part of any other database. -/
theorem answers_coherent (h : Host) :
    (∀ d : Database,
      (∃ cs, d.firstFault? h = none ∧ d.AnswersFrom h cs) ∨
        ∃ e, d.firstFault? h = some e ∧ d.Fails h e) ∧
    (∀ (d : Database) (qs : List Question),
      (history h d (qs.map .ask)).map Exchange.reply = qs.map (d.reply h)) ∧
    ∀ (file : Path) (cs : List CompileCommand), h.read file = .ok (CommandFile.render cs).toUTF8 →
      ∀ (n : Nesting) (q : Question), q.IsAbsolute →
        (n.fill (json file none)).reply h q = (n.fill (memory cs)).reply h q := by
  refine ⟨fun d => ?_, map_reply_history h, fun file cs hfile n q hq => ?_⟩
  · cases hfault : d.firstFault? h with
    | none =>
      obtain ⟨cs, hcs⟩ := exists_answersFrom hfault
      exact .inl ⟨cs, rfl, hcs⟩
    | some e => exact .inr ⟨e, rfl, fails_of_firstFault? hfault⟩
  · have hload : (json file none).commands h = (memory cs).commands h :=
      CommandFile.load_of_read hfile
    rw [reply_eq_map_commands hq, reply_eq_map_commands hq, commands_fill hload]

/-! ## A written file among others -/

namespace Written

def command : CompileCommand := ⟨⟨"/b"⟩, ⟨"a.c"⟩, ["cc", "-c", "a.c"], none⟩

/-- A file that has been written from a command, and nothing else. -/
def tree : FileTree where
  entries := [(["db.json"], .file (CommandFile.render [command]).toUTF8)]
  distinct := by simp
  proper := by simp; decide
  closed := by simp

def host : Host := ⟨tree, some [], none, none, none⟩

def file : Path := ⟨"/db.json"⟩

def missing : Path := ⟨"/no.json"⟩

/-- The file two aggregates down, next to commands in memory. -/
def nesting : Nesting := .among [null] (.among [memory [command]] .here []) [memory []]

/-- The file next to one that is missing. -/
def broken : Database :=
  aggregate [json file none, aggregate [json missing none, memory [command]]]

theorem read_file : host.read file = .ok (CommandFile.render [command]).toUTF8 :=
  Host.read_toPath (l := ["db.json"]) (by simp [host, tree])

theorem load_missing : CommandFile.load host missing = .error (.io missing .notFound) := by
  have hspot : host.spot missing = .ok (.vacant ["no.json"]) := by
    refine (Host.spot_toPath (l := ["no.json"]) (by simp; decide)).trans ?_
    exact FileTree.follow_none rfl rfl
  rw [CommandFile.load, Host.read, Host.locate, hspot]

theorem firstFault?_broken : broken.firstFault? host = some (.io missing .notFound) := by
  have hload : CommandFile.load host file = .ok [command] := CommandFile.load_of_read read_file
  change [file, missing].findSome? (fun file => fault? (CommandFile.load host file)) = _
  rw [List.findSome?_cons, hload, fault?, List.findSome?_singleton, load_missing, fault?]

end Written

open Written in
/-- The command of the file and the one in memory are found under another
spelling, also after questions to all of the database; what is missing
next to the file is everyone's fault. -/
theorem answers_coherent_of_written :
    (nesting.fill (json file none)).reply host (.find ⟨"/b/./a.c"⟩) =
        .ok (.commands [command, command]) ∧
      ((history host broken ([.files, .commands].map .ask)).map Exchange.reply) =
        [.error (.io missing .notFound), .error (.io missing .notFound)] := by
  obtain ⟨hcoherent, hhistory, hwritten⟩ := answers_coherent host
  constructor
  · have habsolute : (⟨"/b/./a.c"⟩ : Path).isAbsolute = true := by decide
    exact (hwritten file [command] read_file nesting (.find ⟨"/b/./a.c"⟩) habsolute).trans (by rfl)
  · rw [hhistory]
    rcases hcoherent broken with ⟨cs, hnone, -⟩ | ⟨e, he, hfails⟩
    · rw [firstFault?_broken] at hnone
      cases hnone
    · rw [firstFault?_broken] at he
      obtain rfl := Option.some.inj he
      rw [List.map_cons, List.map_singleton, reply, reply, hfails.files, hfails.commands]
      rfl

end Database

end CompileCommands
