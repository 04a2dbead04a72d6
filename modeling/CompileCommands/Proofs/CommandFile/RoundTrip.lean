import CompileCommands.CommandFile.Load
import CompileCommands.CommandFile.Writer
import CompileCommands.Proofs.Host.Writing
import CompileCommands.Proofs.Json.Strings
import CompileCommands.Proofs.Shell.Words
/-!
# Written databases, read back

A file of commands is three encodings inside one another: an array of
objects, the strings of their members, and the command line that one of
the strings is. The lemmas here take the reader over one member
(`readMembers_member`), one object (`readRecord_object`) and the list of
objects (`items_separated`); the strings are `keptString_quoted` and the
command line is `words?_commandLine`.
-/

namespace CompileCommands

namespace CommandFile

open Json Text

variable {b : UInt8} {bs rest : List UInt8}

/-! ## Punctuation -/

theorem utf8_cons_of_lt {c : Char} (h : c.toNat < 0x80) (cs : List Char) :
    utf8 (c :: cs) = byte c :: utf8 cs := by
  rw [utf8_cons, utf8EncodeChar_of_lt h, List.singleton_append]

theorem length_le_length_utf8 (cs : List Char) : cs.length ≤ (utf8 cs).length := by
  induction cs with
  | nil => simp
  | cons c cs ih =>
    have hpos : 0 < (String.utf8EncodeChar c).length :=
      List.length_pos_iff.2 String.utf8EncodeChar_ne_nil
    rw [utf8_cons, List.length_append, List.length_cons]
    omega

theorem skipGaps_gap (h : isGap b = true) : skipGaps (b :: bs) = skipGaps bs := by
  rw [skipGaps, skipGaps, List.dropWhile_cons_of_pos h]

theorem skipGaps_token (h : isGap b = false) : skipGaps (b :: bs) = b :: bs := by
  rw [skipGaps, List.dropWhile_cons_of_neg (by simp [h])]

/-! ## Members -/

/-- The value of a member, read as a string. -/
theorem orNull_string_quoted (value : String) :
    orNull string (byte ' ' :: utf8 (quoted value) ++ rest) = .ok (some value, rest) := by
  have hkept := keptString_quoted value rest
  rw [quoted, utf8_cons_of_lt (by decide), List.cons_append, List.cons_append, orNull,
    skipGaps_gap (by decide), skipGaps_token (by decide)]
  simp only [string, skipGaps_token (show isGap (byte '"') = false by decide), hkept, if_pos]
  rw [if_neg (by decide)]
  rfl

/-- The record with the given text in a field that holds a text. -/
def Record.set (r : Record) (value : String) : Field → Record
  | .directory => { r with directory := some value }
  | .file => { r with file := some value }
  | .arguments => r
  | .command => { r with command := some value }
  | .output => { r with output := some value }

theorem read_quoted (r : Record) (value : String) {f : Field} (hf : f ≠ .arguments) :
    f.read r (byte ' ' :: utf8 (quoted value) ++ rest) = .ok (r.set value f, rest) := by
  cases f with
  | arguments => exact absurd rfl hf
  | directory => rw [Field.read, orNull_string_quoted]; rfl
  | file => rw [Field.read, orNull_string_quoted]; rfl
  | command => rw [Field.read, orNull_string_quoted]; rfl
  | output => rw [Field.read, orNull_string_quoted]; rfl

/-- What stands before a member. -/
def separator (first : Bool) : List Char := if first then ['\n'] else [',', '\n']

theorem hasMember_separator {first : Bool} {cs : List Char} :
    hasMember first (utf8 (separator first ++ ' ' :: ' ' :: '"' :: cs) ++ rest) =
      .ok (true, utf8 cs ++ rest) := by
  have hcomma : byte ',' ≠ byte '}' := by decide
  have hquote : byte '"' ≠ byte '}' := by decide
  cases first <;>
    simp (disch := decide) [hasMember, separator, utf8_cons_of_lt, skipGaps_gap, skipGaps_token,
      hcomma, hquote]

/-- **One member of an object** puts its text into its field, provided no
member before it has. -/
theorem readMembers_member {n : Nat} {r : Record} {seen : List Field} {first : Bool}
    {key value : String} {f : Field} (hkey : Field.ofKey? key = some f) (hf : f ≠ .arguments)
    (hseen : f ∉ seen) :
    readMembers (n + 1) r seen first (utf8 (separator first ++ member key value) ++ rest) =
      readMembers n (r.set value f) (f :: seen) false rest := by
  have hmember : member key value = ' ' :: ' ' :: '"' ::
      ((key.toList.flatMap escapeChar ++ ['"']) ++ (':' :: ' ' :: quoted value)) := by
    simp [member, quoted]
  rw [hmember, readMembers, hasMember_separator, utf8_append, List.append_assoc]
  simp only [keptString_quoted, hkey, if_neg hseen]
  rw [utf8_cons_of_lt (by decide), utf8_cons_of_lt (by decide), List.cons_append, colon,
    skipGaps_token (by decide)]
  simp only [if_pos, Except.bind, read_quoted r value hf]

/-- The end of an object. -/
theorem readMembers_close {n : Nat} {r : Record} {seen : List Field} :
    readMembers (n + 1) r seen false (utf8 ['\n', '}'] ++ rest) = .ok (r, rest) := by
  simp (disch := decide) [readMembers, hasMember, closeObject, utf8_cons_of_lt, skipGaps_gap,
    skipGaps_token, Except.map]

/-! ## Objects -/

/-- The record that a command is written as. -/
def Record.ofCommand (c : CompileCommand) : Record :=
  ⟨some c.directory.text, some c.file.text, none, some (Shell.commandLine c.arguments),
    c.output.map Path.text⟩

/-- The last member of an object, if the command has an output. -/
def outputMember (c : CompileCommand) : List Char :=
  (c.output.map fun p => separator false ++ member "output" p.text).getD []

theorem object_eq (c : CompileCommand) :
    object c = '{' :: (separator true ++ member "directory" c.directory.text ++
      (separator false ++ member "command" (Shell.commandLine c.arguments) ++
        (separator false ++ member "file" c.file.text ++ (outputMember c ++ ['\n', '}'])))) := by
  cases hc : c.output <;>
    simp [object, members, separator, outputMember, hc, List.intercalate_cons_cons]

/-- **A written object is read as the record of its command.** -/
theorem readRecord_object (c : CompileCommand) :
    readRecord (utf8 (object c) ++ rest) = .ok (Record.ofCommand c, rest) := by
  rw [object_eq, utf8_cons_of_lt (by decide), List.cons_append, readRecord,
    skipGaps_token (by decide)]
  simp only [if_neg (show byte '{' ≠ byte '[' by decide), if_pos]
  -- five rounds are enough: four members and the closing brace
  obtain ⟨n, hn⟩ : ∃ n, (utf8 (separator true ++ member "directory" c.directory.text ++
      (separator false ++ member "command" (Shell.commandLine c.arguments) ++
        (separator false ++ member "file" c.file.text ++ (outputMember c ++ ['\n', '}'])))) ++
      rest).length = n + 4 := by
    refine ⟨_, (Nat.sub_add_cancel ?_).symm⟩
    refine Nat.le_trans ?_ (List.length_append ▸ Nat.le_add_right _ _)
    refine Nat.le_trans ?_ (length_le_length_utf8 _)
    simp [separator, member]
    omega
  rw [hn]
  rw [utf8_append, List.append_assoc,
    readMembers_member (f := .directory) (by decide) (by decide) (by decide),
    utf8_append, List.append_assoc,
    readMembers_member (f := .command) (by decide) (by decide) (by decide),
    utf8_append, List.append_assoc,
    readMembers_member (f := .file) (by decide) (by decide) (by decide),
    utf8_append, List.append_assoc]
  cases hc : c.output with
  | none =>
    rw [outputMember, hc]
    simp only [Option.map_none, Option.getD_none, utf8_nil, List.nil_append]
    rw [readMembers_close, Record.ofCommand, hc]
    rfl
  | some p =>
    rw [outputMember, hc]
    simp only [Option.map_some, Option.getD_some]
    rw [readMembers_member (f := .output) (by decide) (by decide) (by decide), readMembers_close,
      Record.ofCommand, hc]
    rfl

/-! ## The array -/

/-- What stands before an object that is not the first. -/
def gap : List Char := [',', '\n', '\n']

theorem objects_cons (c : CompileCommand) (cs : List CompileCommand) :
    objects (c :: cs) = object c ++ cs.flatMap fun d => gap ++ object d := by
  induction cs generalizing c with
  | nil => simp [objects]
  | cons d cs ih =>
    have hstep : objects (c :: d :: cs) = object c ++ gap ++ objects (d :: cs) := by
      simp [objects, gap, List.intercalate_cons_cons]
    rw [hstep, ih, List.flatMap_cons, List.append_assoc, List.append_assoc]

theorem length_le_length_separated (cs : List CompileCommand) :
    cs.length ≤ (cs.flatMap fun d => gap ++ object d).length := by
  induction cs with
  | nil => simp
  | cons c cs ih =>
    have hgap : gap.length = 3 := rfl
    simp only [List.flatMap_cons, List.length_append, List.length_cons]
    omega

/-- An object opens with a brace, which is no gap and no bracket. -/
theorem exists_object_eq (c : CompileCommand) : ∃ cs, object c = '{' :: cs := ⟨_, object_eq c⟩

theorem hasItem_first (c : CompileCommand) :
    hasItem true (utf8 ('\n' :: object c) ++ rest) = .ok (true, utf8 (object c) ++ rest) := by
  have hbracket : byte '{' ≠ byte ']' := by decide
  obtain ⟨cs, hcs⟩ := exists_object_eq c
  rw [hcs]
  simp (disch := decide) [hasItem, utf8_cons_of_lt, skipGaps_gap, skipGaps_token, hbracket]

theorem hasItem_next (c : CompileCommand) :
    hasItem false (utf8 (gap ++ object c) ++ rest) = .ok (true, utf8 (object c) ++ rest) := by
  have hcomma : byte ',' ≠ byte ']' := by decide
  have hbracket : byte '{' ≠ byte ']' := by decide
  obtain ⟨cs, hcs⟩ := exists_object_eq c
  rw [hcs]
  simp (disch := decide) [hasItem, gap, utf8_cons_of_lt, skipGaps_gap, skipGaps_token, hcomma,
    hbracket]

/-- The end of the array. -/
theorem items_close {n : Nat} {first : Bool} :
    items readRecord (n + 1) first (utf8 ['\n', ']'] ++ rest) = .ok ([], rest) := by
  cases first <;>
    simp (disch := decide) [items, hasItem, closeArray, utf8_cons_of_lt, skipGaps_gap,
      skipGaps_token, Except.map]

/-- **The objects after the first** are read as the records of their
commands. -/
theorem items_separated {n : Nat} (cs : List CompileCommand) (hn : cs.length < n) :
    items readRecord n false (utf8 ((cs.flatMap fun d => gap ++ object d) ++ ['\n', ']']) ++ rest) =
      .ok (cs.map Record.ofCommand, rest) := by
  induction cs generalizing n with
  | nil =>
    obtain ⟨n, rfl⟩ := Nat.exists_eq_add_of_lt hn
    rw [List.flatMap_nil, List.nil_append]
    exact items_close
  | cons c cs ih =>
    obtain ⟨n, rfl⟩ : ∃ m, n = m + 1 := ⟨n - 1, by omega⟩
    rw [List.flatMap_cons, List.append_assoc, utf8_append, List.append_assoc, items, hasItem_next]
    simp only [readRecord_object]
    rw [ih (by simpa using hn)]
    rfl

/-- **The records of a written file are those of its commands.** -/
theorem readRecords_render (cs : List CompileCommand) :
    readRecords (render cs).toUTF8.toList = .ok (cs.map Record.ofCommand) := by
  rw [toList_toUTF8, render, String.toList_ofList, readRecords]
  suffices h : ∃ m, array readRecord (utf8 (['[', '\n'] ++ objects cs ++
      (if cs.isEmpty then [] else ['\n']) ++ [']', '\n'])) =
        .ok (cs.map Record.ofCommand, m) ∧ skipGaps m = [] by
    obtain ⟨m, hm, hgaps⟩ := h
    rw [whole, hm]
    simp [hgaps]
  -- the reader stops at the bracket, and only a line break is left
  refine ⟨utf8 ['\n'], ?_, by decide⟩
  cases cs with
  | nil => rfl
  | cons c cs =>
    have htext : ['[', '\n'] ++ objects (c :: cs) ++
        (if (c :: cs).isEmpty then [] else ['\n']) ++ [']', '\n'] =
        '[' :: (('\n' :: object c) ++ ((cs.flatMap fun d => gap ++ object d) ++ ['\n', ']']) ++
          ['\n']) := by
      simp [objects_cons]
    rw [htext, utf8_cons_of_lt (by decide), array, skipGaps_token (by decide)]
    simp only [if_pos]
    generalize hn : (utf8 (('\n' :: object c) ++
        ((cs.flatMap fun d => gap ++ object d) ++ ['\n', ']']) ++ ['\n'])).length = n
    -- every object takes up text, so the length of the text is rounds enough
    have hlen : cs.length < n := by
      rw [← hn]
      refine Nat.lt_of_lt_of_le ?_ (length_le_length_utf8 _)
      have hle := length_le_length_separated cs
      simp only [List.length_append, List.length_cons]
      omega
    rw [utf8_append, utf8_append, List.append_assoc, items, hasItem_first]
    simp only [readRecord_object]
    rw [items_separated cs hlen]
    rfl

/-! ## Commands -/

/-- The record of a command stands for the command. -/
theorem toCommand_ofCommand (c : CompileCommand) : (Record.ofCommand c).toCommand = .ok c := by
  have hwords := Shell.words?_commandLine c.arguments
  simp only [Record.toCommand, Record.ofCommand, Record.argumentList, hwords, Except.map]
  rw [Option.map_map]
  simp [Function.comp_def]

theorem toCommands_ofCommand (i : Nat) (cs : List CompileCommand) :
    toCommands i (cs.map Record.ofCommand) = .ok cs := by
  induction cs generalizing i with
  | nil => rfl
  | cons c cs ih =>
    rw [List.map_cons, toCommands, toCommand_ofCommand]
    simp only [ih, Except.map]

/-- **Reading inverts writing**, whatever the commands hold. -/
theorem parse_render (file : Path) (cs : List CompileCommand) :
    parse file (render cs).toUTF8.toList = .ok cs := by
  rw [parse, readRecords_render]
  simp only [toCommands_ofCommand]

/-- A file that holds written commands loads as these commands. -/
theorem load_of_read {h : Host} {file : Path} {cs : List CompileCommand}
    (hread : h.read file = .ok (render cs).toUTF8) : load h file = .ok cs := by
  rw [load, hread]
  exact parse_render file cs

/-- **Writing and loading lose nothing.** The written text parses to the
commands, a file that it has been written to loads as them, and the
command line inside it has the arguments for its words. -/
theorem load_written :
    (∀ (file : Path) (cs : List CompileCommand),
      parse file (render cs).toUTF8.toList = .ok cs) ∧
    (∀ (h h' : Host) (file : Path) (cs : List CompileCommand),
      h.write file (render cs).toUTF8 = .ok h' → load h' file = .ok cs) ∧
    ∀ arguments : List String, Shell.words? (Shell.commandLine arguments) = some arguments :=
  ⟨parse_render, fun _ _ _ _ hw => load_of_read (Host.read_of_write hw), Shell.words?_commandLine⟩

/-- The commands of a file in an empty tree, with arguments that need each
kind of quoting. -/
theorem load_written_in_empty_tree :
    ∃ h', Host.write ⟨.empty, some [], none, none, none⟩ ⟨"/db.json"⟩
        (render [⟨⟨"/b"⟩, ⟨"a b.c"⟩, ["cc", "", "#x", "a\tb\n", "it's", "\"$\\", "\x01é"], some ⟨"a.o"⟩⟩,
          ⟨⟨""⟩, ⟨"\x00"⟩, [], none⟩]).toUTF8 = .ok h' ∧
      load h' ⟨"/db.json"⟩ =
        .ok [⟨⟨"/b"⟩, ⟨"a b.c"⟩, ["cc", "", "#x", "a\tb\n", "it's", "\"$\\", "\x01é"], some ⟨"a.o"⟩⟩,
          ⟨⟨""⟩, ⟨"\x00"⟩, [], none⟩] := by
  have hspot : Host.spot ⟨.empty, some [], none, none, none⟩ ⟨"/db.json"⟩ =
      .ok (.vacant ["db.json"]) := by
    refine Host.spot_eq_ok_iff.2 ⟨by decide, by decide, [], by decide, ?_⟩
    rw [show Text.fields (· == '/') (Path.mk "/db.json").chars = [[], "db.json".toList] by decide,
      FileTree.follow_idle rfl, FileTree.follow_none rfl rfl]
    rfl
  obtain ⟨h', hw⟩ : ∃ h', Host.write ⟨.empty, some [], none, none, none⟩ ⟨"/db.json"⟩
      (render [⟨⟨"/b"⟩, ⟨"a b.c"⟩, ["cc", "", "#x", "a\tb\n", "it's", "\"$\\", "\x01é"], some ⟨"a.o"⟩⟩,
        ⟨⟨""⟩, ⟨"\x00"⟩, [], none⟩]).toUTF8 = .ok h' := by
    rw [Host.write, hspot]
    exact ⟨_, rfl⟩
  exact ⟨h', hw, load_written.2.1 _ _ _ _ hw⟩

end CommandFile

end CompileCommands
