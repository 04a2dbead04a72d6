/-!
# Log lines

What a run tells about itself besides its answers. A function that may
log gives its lines together with its value, in the order in which they
arise.
-/

namespace CompileCommands

/-- How much a log line matters. -/
inductive Severity where
  | debug
  | warn
  | error
deriving DecidableEq, Repr

namespace Severity

/-- The rank of a severity, higher for what matters more. -/
def rank : Severity → Nat
  | debug => 0
  | warn => 1
  | error => 2

/-- The name that a log line carries. -/
def label : Severity → String
  | debug => "DEBUG"
  | warn => "WARN"
  | error => "ERROR"

end Severity

/-- One line of the log. -/
structure LogLine where
  severity : Severity
  message : String
deriving DecidableEq, Repr

/-- A value and what was noted on the way to it. -/
structure Noted (ν : Type) (α : Type) where
  notes : List ν
  value : α

namespace Noted

variable {ν α β : Type}

/-- A value with nothing noted. -/
def silent (a : α) : Noted ν α := ⟨[], a⟩

/-- Goes on from a value, after its notes. -/
def andThen (x : Noted ν α) (f : α → Noted ν β) : Noted ν β :=
  let y := f x.value
  ⟨x.notes ++ y.notes, y.value⟩

@[simp] theorem value_silent (a : α) : (silent a : Noted ν α).value = a := rfl

@[simp] theorem value_andThen (x : Noted ν α) (f : α → Noted ν β) :
    (x.andThen f).value = (f x.value).value := rfl

end Noted

/-- A value with the log lines that led to it. -/
abbrev Logged (α : Type) := Noted LogLine α

end CompileCommands
