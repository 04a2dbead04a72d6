import CompileCommands.Include.Directive
import CompileCommands.Proofs.Text.Fields
import CompileCommands.Proofs.Text.Utf8
import Mathlib.Data.Bool.AllAny
/-!
# The directives of a file

A line that holds a directive can be laid out in many ways
(`WrittenDirective`), and every one of them is read as the delimiter and
the name that it was written with, whatever stands behind
(`ofLine?_line`). A line without a `#` in front holds none. The directives
of a file are therefore those of its lines, and what is written after a
line break is read as if it stood alone (`directives_recovered`).
-/

namespace CompileCommands

namespace Delimiter

/-- The byte that opens a name. -/
def opener : Delimiter → UInt8
  | quoted => 0x22
  | angled => 0x3C

/-- The byte that closes a name. -/
def closer : Delimiter → UInt8
  | quoted => 0x22
  | angled => 0x3E

end Delimiter

namespace Include

/-! ## Names -/

/-- Whether `text` is what the bytes of a name are read as: the text that
they encode, or, if they encode none, one character for each byte. -/
inductive Reads (bs : List UInt8) : String → Prop
  | encoded {text : String} : Text.utf8 text.toList = bs → Reads bs text
  | bytes {text : String} : (∀ s : String, Text.utf8 s.toList ≠ bs) →
      text.toList.map Char.toNat = bs.map UInt8.toNat → Reads bs text

/-- The character that stands for a byte has the byte's number. -/
theorem toNat_ofNat_of_byte (b : UInt8) : (Char.ofNat b.toNat).toNat = b.toNat := by
  have hlt : b.toNat < 256 := b.toNat_lt
  rw [Char.ofNat, dif_pos (.inl (by omega))]
  rfl

theorem map_toNat_latin1 (bs : List UInt8) :
    (bs.map fun b => Char.ofNat b.toNat).map Char.toNat = bs.map UInt8.toNat := by
  rw [List.map_map]
  exact List.map_congr_left fun b _ => toNat_ofNat_of_byte b

/-- **A name is read as exactly one text.** -/
theorem decodeName_eq_iff {bs : List UInt8} {text : String} :
    decodeName bs = text ↔ Reads bs text := by
  unfold decodeName
  cases hutf8 : String.fromUTF8? bs.toByteArray with
  | some s =>
    rw [Text.fromUTF8?_eq_some_iff] at hutf8
    rw [Option.getD_some]
    constructor
    · rintro rfl
      exact .encoded hutf8
    · rintro (htext | ⟨hnone, -⟩)
      · exact String.toList_inj.1 (Text.utf8_injective (hutf8.trans htext.symm))
      · exact absurd hutf8 (hnone s)
  | none =>
    have hnone : ∀ s : String, Text.utf8 s.toList ≠ bs := fun s hs => by
      rw [Text.fromUTF8?_eq_some_iff.2 hs] at hutf8
      cases hutf8
    rw [Option.getD_none]
    constructor
    · rintro rfl
      refine .bytes hnone ?_
      rw [String.toList_ofList, map_toNat_latin1]
    · rintro (htext | ⟨-, htext⟩)
      · exact absurd htext (hnone text)
      · rw [← map_toNat_latin1] at htext
        have hchars := List.map_injective_iff.2 (fun _ _ h => Char.toNat_inj.1 h) htext
        rw [← hchars, String.ofList_toList]

/-! ## Lines that hold a directive -/

/-- The blanks of a line: space, tab, vertical tab, form feed and carriage
return. -/
def IsBlank (b : UInt8) : Prop := b ∈ [0x20, 0x09, 0x0B, 0x0C, 0x0D]

instance : DecidablePred IsBlank := fun b => inferInstanceAs (Decidable (b ∈ _))

theorem isGap_of_isBlank {b : UInt8} (hb : IsBlank b) : isGap b = true := by
  simp only [IsBlank, List.mem_cons, List.not_mem_nil, or_false] at hb
  rcases hb with rfl | rfl | rfl | rfl | rfl <;> rfl

/-- A line break is the only gap that is no blank. -/
theorem isGap_eq_false {b : UInt8} (hblank : ¬ IsBlank b) (hbreak : b ≠ 0x0A) :
    isGap b = false := by
  rw [← Bool.not_eq_true]
  intro hgap
  simp only [isGap, Bool.or_eq_true, Bool.and_eq_true, beq_iff_eq, decide_eq_true_eq,
    UInt8.le_iff_toNat_le, ← UInt8.toNat_inj] at hgap
  simp only [IsBlank, List.mem_cons, List.not_mem_nil, or_false, ← UInt8.toNat_inj] at hblank
  rw [Ne, ← UInt8.toNat_inj] at hbreak
  simp only [UInt8.reduceToNat] at hgap hblank hbreak
  omega

/-- A directive as it is written in a line: blanks, `#`, blanks, `include`,
at least one blank, and the name between its delimiters, with anything
behind. -/
structure WrittenDirective where
  front : List UInt8
  inner : List UInt8
  gap : List UInt8
  delimiter : Delimiter
  name : List UInt8
  text : String
  rest : List UInt8
  front_blank : ∀ b ∈ front, IsBlank b
  inner_blank : ∀ b ∈ inner, IsBlank b
  gap_nonempty : gap ≠ []
  gap_blank : ∀ b ∈ gap, IsBlank b
  name_nonempty : name ≠ []
  name_plain : ∀ b ∈ name, b ∉ [0x22, 0x3E, 0x0A]
  name_read : Reads name text
  rest_unbroken : 0x0A ∉ rest

/-- The line that a directive is written in. -/
def WrittenDirective.line (w : WrittenDirective) : List UInt8 :=
  w.front ++ [0x23] ++ w.inner ++ keyword ++ w.gap ++ [w.delimiter.opener] ++ w.name ++
    [w.delimiter.closer] ++ w.rest

/-! ## Reading a line -/

/-- Blanks are passed over up to what is none. -/
theorem dropWhile_isGap {blanks rest : List UInt8} {b : UInt8}
    (hblanks : ∀ x ∈ blanks, IsBlank x) (hb : isGap b = false) :
    (blanks ++ b :: rest).dropWhile isGap = b :: rest := by
  rw [List.dropWhile_append_of_pos fun x hx => isGap_of_isBlank (hblanks x hx),
    List.dropWhile_cons_of_neg (by simp [hb])]

theorem after?_append (start rest : List UInt8) : after? start (start ++ rest) = some rest := by
  rw [after?, if_pos (List.isPrefixOf_iff_prefix.2 (List.prefix_append start rest)),
    List.drop_left]

/-- A name goes up to the first delimiter that closes one. -/
theorem name?_append {name rest : List UInt8} {b : UInt8} (hne : name ≠ [])
    (hname : ∀ x ∈ name, isCloser x = false) (hb : isCloser b = true) :
    name? (name ++ b :: rest) = some name := by
  obtain ⟨x, xs, rfl⟩ := List.exists_cons_of_ne_nil hne
  have hcut : Text.cut isCloser (xs ++ b :: rest) = some (xs, rest) :=
    Text.cut_eq_some.2 ⟨b, hb, rfl, (List.forall_mem_cons.1 hname).2⟩
  rw [List.cons_append, name?, hcut]
  rfl

/-- What opens a name is known by its delimiter. -/
theorem isGap_opener (d : Delimiter) : isGap d.opener = false := by cases d <;> decide

section

variable {front inner gap name behind : List UInt8}

/-- A line is read from blanks to the next part, and from part to blanks. -/
theorem ofLine?_parts (hfront : ∀ b ∈ front, IsBlank b) (hinner : ∀ b ∈ inner, IsBlank b)
    (hne : gap ≠ []) (hgap : ∀ b ∈ gap, IsBlank b) (d : Delimiter)
    (hname : name? behind = some name) :
    ofLine? (front ++ 0x23 :: (inner ++ (keyword ++ (gap ++ d.opener :: behind)))) =
      some ⟨d, decodeName name⟩ := by
  have hhash := after?_append [0x23] (inner ++ (keyword ++ (gap ++ d.opener :: behind)))
  rw [List.singleton_append] at hhash
  have hkeyword : (inner ++ (keyword ++ (gap ++ d.opener :: behind))).dropWhile isGap =
      keyword ++ (gap ++ d.opener :: behind) := dropWhile_isGap hinner (by decide)
  have hblank : (gap ++ d.opener :: behind).head?.any isGap = true := by
    obtain ⟨b, bs, rfl⟩ := List.exists_cons_of_ne_nil hne
    exact isGap_of_isBlank (hgap b (List.mem_cons_self ..))
  rw [ofLine?, dropWhile_isGap hfront (by decide), hhash, Option.bind_eq_bind, Option.bind_some,
    hkeyword, after?_append, Option.bind_eq_bind, Option.bind_some, if_pos hblank,
    dropWhile_isGap hgap (isGap_opener d)]
  simp only [hname, Option.bind_some]
  cases d <;> rfl

end

/-- **A written directive is read**, however it is laid out. -/
theorem ofLine?_line (w : WrittenDirective) :
    ofLine? w.line = some ⟨w.delimiter, w.text⟩ := by
  have hname : name? (w.name ++ w.delimiter.closer :: w.rest) = some w.name := by
    refine name?_append w.name_nonempty (fun b hb => ?_) ?_
    · have hplain := w.name_plain b hb
      simp only [List.mem_cons, List.not_mem_nil, or_false, not_or] at hplain
      simp [isCloser, hplain]
    · cases w.delimiter <;> rfl
  have hparts := ofLine?_parts w.front_blank w.inner_blank w.gap_nonempty w.gap_blank w.delimiter
    hname
  rw [decodeName_eq_iff.2 w.name_read] at hparts
  rw [← hparts, WrittenDirective.line]
  simp only [List.append_assoc, List.cons_append, List.nil_append]

/-! ## Lines that hold none -/

/-- Whether a line is blank, or has something else than a `#` behind its
first blanks. -/
structure IsOtherLine (line : List UInt8) : Prop where
  unbroken : 0x0A ∉ line
  first : line.find? (fun b => ¬ IsBlank b) ≠ some 0x23

/-- What stands behind the blanks is the first byte that is none. -/
theorem head?_dropWhile_isGap {line : List UInt8} (hline : 0x0A ∉ line) :
    (line.dropWhile isGap).head? = line.find? fun b => ¬ IsBlank b := by
  induction line with
  | nil => rfl
  | cons b bs ih =>
    obtain ⟨hb, hbs⟩ := not_or.1 (List.mem_cons.not.1 hline)
    by_cases hblank : IsBlank b
    · rw [List.dropWhile_cons_of_pos (isGap_of_isBlank hblank), ih hbs,
        List.find?_cons_of_neg (by simpa using hblank)]
    · rw [List.dropWhile_cons_of_neg (by simp [isGap_eq_false hblank (Ne.symm hb)]),
        List.find?_cons_of_pos (by simpa using hblank)]
      rfl

theorem IsOtherLine.ofLine?_eq_none {line : List UInt8} (h : IsOtherLine line) :
    ofLine? line = none := by
  have hfirst := h.first
  rw [← head?_dropWhile_isGap h.unbroken] at hfirst
  have hafter : after? [0x23] (line.dropWhile isGap) = none := by
    rw [after?, if_neg]
    intro hprefix
    obtain ⟨rest, hrest⟩ := List.isPrefixOf_iff_prefix.1 hprefix
    exact hfirst (by rw [← hrest]; rfl)
  rw [ofLine?, hafter]
  rfl

/-! ## Files -/

/-- A line of a file. -/
inductive SourceLine where
  | directive (w : WrittenDirective)
  | other (bytes : List UInt8) (isOther : IsOtherLine bytes)

namespace SourceLine

/-- The bytes of a line. -/
def bytes : SourceLine → List UInt8
  | directive w => w.line
  | other bytes _ => bytes

/-- The directive that is written in a line, if there is one. -/
def include? : SourceLine → Option Include
  | directive w => some ⟨w.delimiter, w.text⟩
  | other _ _ => none

theorem ofLine?_bytes (l : SourceLine) : ofLine? l.bytes = l.include? := by
  cases l with
  | directive w => exact ofLine?_line w
  | other bytes isOther => exact isOther.ofLine?_eq_none

end SourceLine

theorem WrittenDirective.unbroken (w : WrittenDirective) : 0x0A ∉ w.line := by
  have hblank : ∀ {bs : List UInt8}, (∀ b ∈ bs, IsBlank b) → 0x0A ∉ bs := fun hbs hmem =>
    absurd (hbs _ hmem) (by decide)
  have hname : 0x0A ∉ w.name := fun hmem => absurd (w.name_plain _ hmem) (by decide)
  have hdelimiter : w.delimiter.opener ≠ 0x0A ∧ w.delimiter.closer ≠ 0x0A := by
    cases w.delimiter <;> decide
  simp only [WrittenDirective.line, List.mem_append, List.mem_singleton, not_or]
  exact ⟨⟨⟨⟨⟨⟨⟨⟨hblank w.front_blank, by decide⟩, hblank w.inner_blank⟩, by decide⟩,
    hblank w.gap_blank⟩, hdelimiter.1.symm⟩, hname⟩, hdelimiter.2.symm⟩, w.rest_unbroken⟩

theorem SourceLine.unbroken (l : SourceLine) : 0x0A ∉ l.bytes := by
  cases l with
  | directive w => exact w.unbroken
  | other bytes isOther => exact isOther.unbroken

/-- **A line break divides the directives** into those before it and those
behind. -/
theorem ofContent_append (x y : List UInt8) :
    ofContent (x ++ 0x0A :: y) = ofContent x ++ ofContent y := by
  have hfields : Text.fields (· == 0x0A) (x ++ 0x0A :: y) =
      Text.fields (· == 0x0A) x ++ Text.fields (· == 0x0A) y :=
    Text.fields_append (by decide) x y
  rw [ofContent, hfields, List.filterMap_append]
  rfl

theorem ofContent_intercalate (ls : List SourceLine) :
    ofContent (List.intercalate [0x0A] (ls.map SourceLine.bytes)) =
      ls.filterMap SourceLine.include? := by
  by_cases hnil : ls = []
  · rw [hnil]
    rfl
  · have hne : ls.map SourceLine.bytes ≠ [] := fun hmap => hnil (List.map_eq_nil_iff.1 hmap)
    have hlines : ∀ line ∈ ls.map SourceLine.bytes, (0x0A : UInt8) ∉ line := by
      intro line hline
      obtain ⟨l, -, rfl⟩ := List.mem_map.1 hline
      exact l.unbroken
    rw [ofContent, Text.fields_intercalate hne hlines, List.filterMap_map]
    exact List.filterMap_congr fun l _ => l.ofLine?_bytes

/-- **A file has the directives that are written in its lines**, each with
its delimiter and its name, in order and no others; every name is read as
one text; and what stands behind a line break is read on its own. -/
theorem directives_recovered :
    (∀ ls : List SourceLine,
      ofContent (List.intercalate [0x0A] (ls.map SourceLine.bytes)) =
        ls.filterMap SourceLine.include?) ∧
    (∀ name : List UInt8, ∃! text, Reads name text) ∧
    ∀ x y : List UInt8, ofContent (x ++ 0x0A :: y) = ofContent x ++ ofContent y :=
  ⟨ofContent_intercalate,
    fun name => ⟨decodeName name, decodeName_eq_iff.1 rfl, fun _ h => (decodeName_eq_iff.2 h).symm⟩,
    ofContent_append⟩

/-! ## A file of three lines -/

namespace Sample

/-- Blanks of every kind, and further brackets behind the name. -/
def quoted : WrittenDirective where
  front := Text.utf8 " \t".toList
  inner := Text.utf8 "\x0B".toList
  gap := Text.utf8 " \x0C".toList
  delimiter := .quoted
  name := Text.utf8 "a/<b.h".toList
  text := "a/<b.h"
  rest := Text.utf8 " // \"c.h\" <d.h>\r".toList
  front_blank := List.all_iff_forall_prop.1 (by decide)
  inner_blank := List.all_iff_forall_prop.1 (by decide)
  gap_nonempty := by decide
  gap_blank := List.all_iff_forall_prop.1 (by decide)
  name_nonempty := by decide
  name_plain := List.all_iff_forall_prop.1 (by decide)
  name_read := .encoded rfl
  rest_unbroken := by decide

/-- A name that is no UTF-8. -/
def angled : WrittenDirective where
  front := []
  inner := []
  gap := Text.utf8 "\r".toList
  delimiter := .angled
  name := 0xE1 :: Text.utf8 ".h".toList
  text := "á.h"
  rest := []
  front_blank := List.all_iff_forall_prop.1 (by decide)
  inner_blank := List.all_iff_forall_prop.1 (by decide)
  gap_nonempty := by decide
  gap_blank := List.all_iff_forall_prop.1 (by decide)
  name_nonempty := by decide
  name_plain := List.all_iff_forall_prop.1 (by decide)
  name_read := by
    refine .bytes (fun s hs => ?_) (by decide)
    have hread := Text.fromUTF8?_eq_some_iff.2 hs
    have hnone : String.fromUTF8? (0xE1 :: Text.utf8 ".h".toList).toByteArray = none := by decide
    rw [hnone] at hread
    cases hread
  rest_unbroken := by decide

/-- A directive that is commented out. -/
def comment : SourceLine := .other (Text.utf8 " // #include \"no.h\"".toList) ⟨by decide, by decide⟩

end Sample

/-- Two directives, and a line between them that holds none. -/
theorem directives_recovered_of_sample :
    ofContent (Text.utf8 " \t#\x0Binclude \x0C\"a/<b.h\" // \"c.h\" <d.h>\r\n".toList ++
      Text.utf8 " // #include \"no.h\"\n".toList ++
      Text.utf8 "#include\r<".toList ++ 0xE1 :: Text.utf8 ".h>".toList) =
        [⟨.quoted, "a/<b.h"⟩, ⟨.angled, "á.h"⟩] :=
  directives_recovered.1 [.directive Sample.quoted, Sample.comment, .directive Sample.angled]

end Include

end CompileCommands
