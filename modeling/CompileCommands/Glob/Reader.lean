import CompileCommands.Glob.Basic
/-!
# Reading a glob

A glob is read character by character. Braces open groups of branches
that commas set apart, and groups can be nested; brackets open a class,
in which `]` or `-` in front, and `-` at the end, stand for themselves;
a backslash takes the meaning from the next character. Two stars in a
row reach over separators only where they fill a whole component, and
are two single stars elsewhere.
-/

namespace CompileCommands

/-- Why a text is no glob. -/
inductive GlobFault where
  | unclosedClass
  | invalidRange (low high : Char)
  | unclosedGroup
  | unopenedGroup
  | danglingEscape
deriving DecidableEq, Repr

namespace GlobFault

/-- What is wrong with the text. -/
def reason : GlobFault → String
  | unclosedClass => "unclosed character class; missing ']'"
  | invalidRange low high =>
    "invalid range; '" ++ low.toString ++ "' > '" ++ high.toString ++ "'"
  | unclosedGroup =>
    "unclosed alternate group; missing '\x7d' (maybe escape '\x7b' with '[\x7b]'?)"
  | unopenedGroup =>
    "unopened alternate group; missing '\x7b' (maybe escape '\x7d' with '[\x7d]'?)"
  | danglingEscape => "dangling '\\'"

/-- The wording of a fault in the given glob. -/
def message (f : GlobFault) (glob : String) : String :=
  "error parsing glob '" ++ glob ++ "': " ++ f.reason

end GlobFault

namespace GlobReader

/-- A group whose closing brace has not been read: the branches before
the current one and the parts before the group, each last first. -/
structure OpenGroup where
  branches : List Glob
  before : List Glob

/-- A class whose closing bracket has not been read. -/
structure OpenClass where
  /-- Whether the place for the negation sign is past. -/
  started : Bool
  negated : Bool
  /-- Whether no character has been read. -/
  first : Bool
  /-- Whether a `-` waits for the end of its range. -/
  inRange : Bool
  /-- The ranges, last first. -/
  ranges : List (Char × Char)

/-- What the next character is part of. -/
inductive Mode where
  | outside
  | escape
  | inClass (c : OpenClass)

/-- What has been read of a glob. -/
structure State where
  groups : List OpenGroup
  /-- The parts of the current branch, last first. -/
  parts : List Glob
  /-- The character before the next one. -/
  previous : Option Char

/-- The state after one more part. -/
def State.push (s : State) (a : GlobAtom) : State := { s with parts := .atom a :: s.parts }

/-- The state after two single stars. -/
def State.pushStars (s : State) : State := (s.push .star).push .star

/-- The end of the last range of a class moved to `c`. -/
def extendRange (c : Char) : List (Char × Char) → Except GlobFault (List (Char × Char))
  | [] => .ok []
  | r :: rs => if c < r.1 then .error (.invalidRange r.1 c) else .ok ((r.1, c) :: rs)

/-- One character further in a class: the class, and whether it has
ended. -/
def OpenClass.step (k : OpenClass) (c : Char) : Except GlobFault (OpenClass × Bool) :=
  if !k.started && (c == '!' || c == '^') then
    .ok ({ k with started := true, negated := true }, false)
  else if c = ']' && !k.first then .ok (k, true)
  else if c = '-' && !k.first && !k.inRange then
    .ok ({ k with started := true, inRange := true }, false)
  else if k.inRange then
    (extendRange c k.ranges).map fun rs =>
      ({ k with started := true, first := false, inRange := false, ranges := rs }, false)
  else
    .ok ({ k with started := true, first := false, ranges := (c, c) :: k.ranges }, false)

/-- The part that a finished class stands for. -/
def OpenClass.close (k : OpenClass) : GlobAtom :=
  .oneOf k.negated ((if k.inRange then ('-', '-') :: k.ranges else k.ranges).reverse)

/-- The group opened by a brace. -/
def State.openGroup (s : State) : State :=
  { s with groups := ⟨[], s.parts⟩ :: s.groups, parts := [] }

/-- A comma: the next branch of the innermost group, or itself outside
groups. -/
def State.comma (s : State) : State :=
  match s.groups with
  | [] => s.push (.literal ',')
  | g :: gs =>
    { s with
      groups := { g with branches := Glob.sequence s.parts.reverse :: g.branches } :: gs
      parts := [] }

/-- The innermost group closed by a brace. -/
def State.closeGroup (s : State) : Except GlobFault State :=
  match s.groups with
  | [] => .error .unopenedGroup
  | g :: gs =>
    let branches := (Glob.sequence s.parts.reverse :: g.branches).reverse
    .ok { s with groups := gs, parts := Glob.choice branches :: g.before }

/-- What the second of two stars makes of them, given the characters
after it: the state, and whether a separator is taken along. -/
def State.doubleStar (s : State) (next : Option Char) : State × Bool :=
  let inGroup := !s.groups.isEmpty
  if s.parts.isEmpty then
    if next.all (· == '/') then (s.push .leadingDirectories, next.isSome)
    else (s.pushStars, false)
  else if s.previous != some '/' &&
      !(inGroup && (s.previous == some ',' || s.previous == some '\x7b')) then
    (s.pushStars, false)
  else
    let final := next.isNone || inGroup && (next == some ',' || next == some '\x7d')
    if !final && next != some '/' then (s.pushStars, false)
    else
      let dropped : State := { s with parts := s.parts.tail }
      let kept : GlobAtom :=
        match s.parts.head? with
        | some (.atom .leadingDirectories) => .leadingDirectories
        | some (.atom .everythingBelow) => .everythingBelow
        | _ => if final then .everythingBelow else .innerDirectories
      (dropped.push kept, !final)

/-- The glob of all parts. A lone `**` reaches names as well as
directories. -/
def assemble (parts : List Glob) : Glob :=
  if parts = [.atom .leadingDirectories] then .both (.atom .leadingDirectories) (.atom .star)
  else Glob.sequence parts

/-- The glob that has been read when the text ends. -/
def finish (s : State) : Mode → Except GlobFault Glob
  | .escape => .error .danglingEscape
  | .inClass _ => .error .unclosedClass
  | .outside =>
    if s.groups.isEmpty then .ok (assemble s.parts.reverse) else .error .unclosedGroup

/-- Reads the rest of a glob. -/
def readFrom (s : State) : Mode → List Char → Except GlobFault Glob
  | mode, [] => finish s mode
  | .escape, c :: cs =>
    readFrom { s.push (.literal c) with previous := some c } .outside cs
  | .inClass k, c :: cs =>
    match k.step c with
    | .error e => .error e
    | .ok (k, true) => readFrom { s.push k.close with previous := some c } .outside cs
    | .ok (k, false) => readFrom s (.inClass k) cs
  | .outside, '*' :: '*' :: '/' :: cs =>
    match s.doubleStar (some '/') with
    | (s, true) => readFrom { s with previous := some '/' } .outside cs
    | (s, false) =>
      readFrom { s.push (.literal '/') with previous := some '/' } .outside cs
  | .outside, '*' :: '*' :: cs =>
    readFrom { (s.doubleStar cs.head?).1 with previous := some '*' } .outside cs
  | .outside, c :: cs =>
    let s' := { s with previous := some c }
    if c = '*' then readFrom (s'.push .star) .outside cs
    else if c = '?' then readFrom (s'.push .any) .outside cs
    else if c = '[' then readFrom s' (.inClass ⟨false, false, true, false, []⟩) cs
    else if c = '\x7b' then readFrom s'.openGroup .outside cs
    else if c = '\x7d' then
      match s'.closeGroup with
      | .error e => .error e
      | .ok s => readFrom s .outside cs
    else if c = ',' then readFrom s'.comma .outside cs
    else if c = '\\' then readFrom s' .escape cs
    else readFrom (s'.push (.literal c)) .outside cs

end GlobReader

/-- The glob that a text stands for. -/
def Glob.ofText (text : String) : Except GlobFault Glob :=
  GlobReader.readFrom ⟨[], [], none⟩ .outside text.toList

end CompileCommands
