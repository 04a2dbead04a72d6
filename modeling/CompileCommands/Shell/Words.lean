/-!
# Words of a command line

How a command line is split into arguments by the rules of a shell's
quoting. Single quotes keep everything up to the next one. Inside double
quotes a backslash escapes only `$`, a backquote, `"`, `\` and a line
break, and outside quotes it escapes any character; an escaped line
break is left out. A `#` where a word could start begins a comment up to
the end of the line. Words end at a space, a tab or a line break.

A line that ends inside quotes or after a lone backslash has no words.
-/

namespace CompileCommands

namespace Shell

/-- Where in a command line the reader stands. `pending` holds the
characters of the unfinished word, last first. -/
inductive Mode where
  /-- Between words. -/
  | between
  /-- In a comment. -/
  | comment
  /-- In a word, outside quotes. -/
  | bare (pending : List Char)
  /-- After a backslash outside quotes. -/
  | bareEscape (pending : List Char)
  /-- Between single quotes. -/
  | single (pending : List Char)
  /-- Between double quotes. -/
  | double (pending : List Char)
  /-- After a backslash between double quotes. -/
  | doubleEscape (pending : List Char)
deriving DecidableEq, Repr

/-- Whether a character ends a word. -/
def isGap (c : Char) : Bool := c == ' ' || c == '\t' || c == '\n'

/-- Whether a backslash between double quotes takes its meaning from the
character. -/
def escapesInQuotes (c : Char) : Bool := c == '$' || c == '`' || c == '"' || c == '\\'

/-- The mode after a character that starts or continues a bare word. -/
def bareMode (pending : List Char) (c : Char) : Mode :=
  if c = '\'' then .single pending
  else if c = '"' then .double pending
  else if c = '\\' then .bareEscape pending
  else .bare (c :: pending)

/-- One character further: the new mode, and the word that it ended. -/
def Mode.step : Mode → Char → Mode × Option (List Char)
  | .between, c =>
    if isGap c then (.between, none)
    else if c = '#' then (.comment, none)
    else (bareMode [] c, none)
  | .comment, c => (if c = '\n' then .between else .comment, none)
  | .bare w, c => if isGap c then (.between, some w.reverse) else (bareMode w c, none)
  | .bareEscape w, c => (.bare (if c = '\n' then w else c :: w), none)
  | .single w, c => (if c = '\'' then .bare w else .single (c :: w), none)
  | .double w, c =>
    (if c = '"' then .bare w else if c = '\\' then .doubleEscape w else .double (c :: w), none)
  | .doubleEscape w, c =>
    (.double (if c = '\n' then w else if escapesInQuotes c then c :: w else c :: '\\' :: w), none)

/-- The words of the rest of a command line. -/
def wordsFrom : Mode → List Char → Option (List (List Char))
  | .between, [] | .comment, [] => some []
  | .bare w, [] => some [w.reverse]
  | _, [] => none
  | m, c :: cs =>
    match m.step c with
    | (m, none) => wordsFrom m cs
    | (m, some w) => (wordsFrom m cs).map (w :: ·)

/-- The arguments that a command line stands for. -/
def words? (line : String) : Option (List String) :=
  (wordsFrom .between line.toList).map fun ws => ws.map String.ofList

end Shell

end CompileCommands
