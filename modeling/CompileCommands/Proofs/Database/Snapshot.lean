import CompileCommands.Database.Basic
/-!
# A file database is a snapshot

Questions to a file database and changes of the machine may come in any
order. As long as the file cannot be loaded, every question fails for
the reason of the moment and leaves nothing behind. The first question
that finds it loadable keeps what it holds, and from then on that is what
all questions are answered from, whatever becomes of the file
(`snapshot_of_history`).
-/

namespace CompileCommands

/-- A question to a database. -/
inductive Question where
  /-- Which commands compile a file. -/
  | find (p : Path)
  /-- Which files there are. -/
  | files
  /-- Which commands there are. -/
  | commands

/-- What a question is answered with. -/
inductive Found where
  | files (ps : List Path)
  | commands (cs : List CompileCommand)

/-- The answer that the given commands make, for paths as the user sees
them. -/
def Question.answer (h : Host) (cs : List CompileCommand) : Question → Found
  | find p => .commands (Database.matching (h.logicalPath p) cs)
  | files => .files (cs.map CompileCommand.normalizedFile)
  | commands => .commands cs

namespace Database

/-- What a database replies to a question. -/
def reply (h : Host) (d : Database) : Question → Except DbError Found
  | .find p => (d.find h p).map .commands
  | .files => (d.files h).map .files
  | .commands => (d.commands h).map .commands

/-- What happens while a database is in use. -/
inductive Event where
  /-- The machine changes: a file is written, replaced or removed, or
  anything else. -/
  | change (f : Host → Host)
  | ask (q : Question)

/-- A question when it was asked, the reply, and the database that it
left. -/
structure Exchange where
  host : Host
  question : Question
  reply : Except DbError Found
  left : Database

/-- All questions of a course of events, in order. -/
def history : Host → Database → List Event → List Exchange
  | _, _, [] => []
  | h, d, .change f :: es => history (f h) d es
  | h, d, .ask q :: es => ⟨h, q, d.reply h q, d.read h⟩ :: history h (d.read h) es

variable {h : Host} {file : Path} {cs : List CompileCommand} {q : Question} {es : List Event}

/-! ## One question -/

/-- Every question to a file is answered from all that it holds. -/
theorem reply_json (h : Host) (file : Path) (kept : Option (List CompileCommand)) (q : Question) :
    (json file kept).reply h q = (fileCommands h file kept).map (q.answer h) := by
  cases q <;> simp only [reply, find, files, commands] <;> cases fileCommands h file kept <;> rfl

/-- A question keeps what the file holds, if it could be loaded. -/
theorem read_json (h : Host) (file : Path) (kept : Option (List CompileCommand)) :
    (json file kept).read h = json file (fileCommands h file kept).toOption := by
  cases kept with
  | some held => rfl
  | none =>
    unfold read readThrough fileCommands
    cases CommandFile.load h file <;> rfl

/-! ## All questions -/

/-- Whether a question failed because the file could not be loaded then,
and left it unread. -/
def Exchange.Fails (file : Path) (x : Exchange) : Prop :=
  ∃ e, CommandFile.load x.host file = .error e ∧ x.reply = .error e ∧ x.left = .json file none

/-- Whether a question was answered from the given commands, which stay
what is kept. -/
def Exchange.IsServed (file : Path) (cs : List CompileCommand) (x : Exchange) : Prop :=
  x.reply = .ok (x.question.answer x.host cs) ∧ x.left = .json file (some cs)

theorem history_change (h : Host) (d : Database) (f : Host → Host) (es : List Event) :
    history h d (.change f :: es) = history (f h) d es := (rfl)

theorem history_ask (h : Host) (d : Database) (q : Question) (es : List Event) :
    history h d (.ask q :: es) = ⟨h, q, d.reply h q, d.read h⟩ :: history h (d.read h) es := (rfl)

/-- **What is kept answers everything.** -/
theorem isServed_of_kept (file : Path) (cs : List CompileCommand) (h : Host) (es : List Event) :
    ∀ x ∈ history h (.json file (some cs)) es, x.IsServed file cs := by
  induction es generalizing h with
  | nil => exact fun x hx => absurd hx List.not_mem_nil
  | cons e es ih =>
    cases e with
    | change f =>
      rw [history_change]
      exact ih (f h)
    | ask q =>
      rw [history_ask, reply_json, read_json, fileCommands]
      exact List.forall_mem_cons.2 ⟨⟨rfl, rfl⟩, ih h⟩

/-- **A file database is a snapshot taken at its first successful read.**
The questions before it fail for what is wrong with the file at the time
and leave the database unread; it and all questions after it are answered
from what the file holds at that moment. -/
theorem snapshot_of_history (file : Path) (h : Host) (es : List Event) :
    ∃ failing served, history h (.json file none) es = failing ++ served ∧
      (∀ x ∈ failing, x.Fails file) ∧
      ∀ first, served.head? = some first → ∃ cs, CommandFile.load first.host file = .ok cs ∧
        ∀ x ∈ served, x.IsServed file cs := by
  induction es generalizing h with
  | nil =>
    refine ⟨[], [], rfl, fun x hx => absurd hx List.not_mem_nil, fun first hfirst => ?_⟩
    cases hfirst
  | cons e es ih =>
    cases e with
    | change f =>
      rw [history_change]
      exact ih (f h)
    | ask q =>
      rw [history_ask, reply_json, read_json, fileCommands]
      cases hload : CommandFile.load h file with
      | error e =>
        -- one more failure, after which nothing is kept
        obtain ⟨failing, served, hhistory, hfailing, hserved⟩ := ih h
        refine ⟨⟨h, q, .error e, .json file none⟩ :: failing, served, ?_, ?_, hserved⟩
        · rw [List.cons_append, ← hhistory]
          rfl
        · exact List.forall_mem_cons.2 ⟨⟨e, hload, rfl, rfl⟩, hfailing⟩
      | ok cs =>
        refine ⟨[], _, rfl, fun x hx => absurd hx List.not_mem_nil, fun first hfirst => ?_⟩
        obtain rfl := Option.some.inj hfirst
        exact ⟨cs, hload, List.forall_mem_cons.2 ⟨⟨rfl, rfl⟩, isServed_of_kept file cs h es⟩⟩

end Database

end CompileCommands
