import CompileCommands.Config.Variable
import CompileCommands.Text.Blank
/-!
# Settings

What one source of a configuration sets. A source may leave a variable
unset, which is different from setting it to the empty list. On a command
line a variable is set by its key and a list with commas, and the last
setting of a variable counts.
-/

namespace CompileCommands

/-- The values that a source gives to the variables. -/
structure Settings where
  buildDirectories : Option (List String)
  complementers : Option (List String)
deriving DecidableEq, Repr

namespace Settings

/-- The settings that set nothing. -/
def empty : Settings := ⟨none, none⟩

/-- The value of a variable, if it is set. -/
def get? (s : Settings) : Variable → Option (List String)
  | .buildDirectories => s.buildDirectories
  | .complementers => s.complementers

/-- The settings in which a variable has the given value. -/
def set (s : Settings) (v : Variable) (value : List String) : Settings :=
  match v with
  | .buildDirectories => { s with buildDirectories := some value }
  | .complementers => { s with complementers := some value }

@[simp] theorem get?_empty (v : Variable) : empty.get? v = none := by cases v <;> rfl

theorem get?_set (s : Settings) (v w : Variable) (value : List String) :
    (s.set v value).get? w = if w = v then some value else s.get? w := by
  cases v <;> cases w <;> rfl

end Settings

/-- A variable set on a command line, to the text after the sign. -/
structure Override where
  target : Variable
  value : String
deriving DecidableEq, Repr

namespace Override

/-- The override for a key. -/
def ofKey (key value : String) : Except ConfigError Override :=
  (Variable.ofKey key).map fun v => ⟨v, value⟩

/-- The override that an argument stands for: a key and a value, set
apart by the first equals sign. Without one the value is `yes`. -/
def ofText (argument : String) : Except ConfigError Override :=
  match Text.cut (· == '=') argument.toList with
  | some (key, value) => ofKey (String.ofList key) (String.ofList value)
  | none => ofKey argument "yes"

/-- The items of a list with commas, without the blanks around them.
Empty items are left out. -/
def listItems (value : String) : List String :=
  (((Text.fields (· == ',') value.toList).map Text.trim).filter fun item => !item.isEmpty).map
    String.ofList

end Override

/-- The settings that overrides make, later ones replacing earlier
ones. -/
def Settings.ofOverrides (os : List Override) : Settings :=
  os.foldl (fun s o => s.set o.target (Override.listItems o.value)) empty

end CompileCommands
