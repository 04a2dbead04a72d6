import CompileCommands.Proofs.Toml.Quoted
import CompileCommands.Toml.Document
/-!
# Written values, read back

A list of texts is written between brackets, item after item, and read as
those items (`value_listed`). The reader of a document unifies line breaks
first, which changes nothing where no carriage return stands
(`unifyBreaks_of_not_mem`).
-/

namespace CompileCommands

namespace Toml

variable {cs rest pad : List Char} {c : Char}

/-! ## Before and between values -/

theorem unifyBreaks_of_not_mem (h : '\r' ∉ cs) : unifyBreaks cs = cs := by
  induction cs using unifyBreaks.induct with
  | case1 cs => exact absurd (List.mem_cons_self ..) h
  | case2 c cs hbreak ih =>
    rw [unifyBreaks, ih fun hmem => h (List.mem_cons_of_mem _ hmem)]
    exact hbreak
  | case3 => rfl

/-- **What is read** is the text itself, if neither a byte order mark nor a
carriage return stands in it. -/
theorem document_eq {content : String} (hfirst : content.toList.head? ≠ some '\ufeff')
    (hreturn : '\r' ∉ content.toList) :
    document content = (lines content.toList.length content.toList).bind ofLines := by
  have hmark : ∀ cs, content.toList ≠ '\ufeff' :: cs := fun cs hcs => hfirst (by rw [hcs]; rfl)
  unfold document
  split
  · rename_i cs heq
    exact absurd heq (hmark cs)
  · simp only [unifyBreaks_of_not_mem hreturn]

/-- Whether a character is part of neither white space nor a comment. -/
def IsToken (c : Char) : Prop := isSpace c = false ∧ c ≠ '#' ∧ c ≠ '\n'

theorem skipSpaces_append (hpad : ∀ x ∈ pad, isSpace x = true) (hc : isSpace c = false) :
    skipSpaces (pad ++ c :: cs) = c :: cs := by
  rw [skipSpaces, List.dropWhile_append_of_pos hpad, List.dropWhile_cons_of_neg (by simp [hc])]

/-- Spaces before a token are passed over. -/
theorem skipGaps_append (hpad : ∀ x ∈ pad, isSpace x = true) (hc : IsToken c) :
    skipGaps (pad ++ c :: cs) = c :: cs := by
  obtain ⟨hspace, hhash, hbreak⟩ := hc
  have hcomment : skipComment (c :: cs) = c :: cs := by
    unfold skipComment
    split
    · rename_i heq
      exact absurd (List.cons.inj heq).1 hhash
    · rfl
  rw [skipGaps, skipLines, skipSpaces_append hpad hspace, hcomment]
  split
  · rename_i heq
    exact absurd (List.cons.inj heq).1 hbreak
  · rfl

theorem skipGaps_token (hc : IsToken c) : skipGaps (c :: cs) = c :: cs :=
  @skipGaps_append cs [] c (fun _ h => absurd h List.not_mem_nil) hc

theorem isToken_mark (f : TextForm) : IsToken f.mark := by
  cases f <;> exact ⟨by decide, by decide, by decide⟩

/-! ## Lists of texts -/

/-- What may follow a text. -/
def EndsText (rest : List Char) : Prop := ∀ f : TextForm, rest.head? ≠ some f.mark

theorem endsText_cons (hc : c ≠ '"' ∧ c ≠ '\'') : EndsText (c :: rest) := by
  intro f h
  cases f
  · exact hc.1 (Option.some.inj h)
  · exact hc.2 (Option.some.inj h)
  · exact hc.1 (Option.some.inj h)
  · exact hc.2 (Option.some.inj h)

/-- **A written text is a value**, at any depth. -/
theorem valueWithin_quoted (n : Nat) (s : String) (hrest : EndsText rest) :
    valueWithin (n + 1) (quoted s ++ rest) = some (.scalar (.text s), rest) := by
  have hscalar : scalar (quoted s ++ rest) = some (.text s, rest) := by
    rw [scalar, text_quoted s hrest]
  cases n with
  | zero =>
    rw [valueWithin, hscalar]
    rfl
  | succ n =>
    obtain ⟨f, cs, hcs⟩ := exists_quoted_eq s
    rw [hcs, List.cons_append] at hscalar ⊢
    -- a quote opens neither an array nor a table
    have hvalue : valueWithin (n + 2) (f.mark :: (cs ++ rest)) =
        (scalar (f.mark :: (cs ++ rest))).map fun r => (.scalar r.1, r.2) := by
      cases f <;> rfl
    rw [hvalue, hscalar]
    rfl

/-- The values that texts are. -/
def textNodes (ss : List String) : List Node := ss.map fun s => .scalar (.text s)

/-- Texts as the items of a list are written. -/
def listed (ss : List String) : List Char := List.intercalate [',', ' '] (ss.map quoted)

theorem listed_cons_cons (s t : String) (ss : List String) :
    listed (s :: t :: ss) = quoted s ++ ',' :: ' ' :: listed (t :: ss) := by
  rw [listed, List.map_cons, List.map_cons, List.intercalate_cons_cons, List.append_assoc]
  rfl

/-- Every item takes up at least one character. -/
theorem length_le_length_listed (ss : List String) : ss.length ≤ (listed ss).length := by
  induction ss with
  | nil => exact Nat.zero_le _
  | cons s ss ih =>
    obtain ⟨f, cs, hcs⟩ := exists_quoted_eq s
    have hpos : 1 ≤ (quoted s).length := by rw [hcs, List.length_cons]; omega
    cases ss with
    | nil => rwa [listed, List.map_singleton, List.intercalate_singleton]
    | cons t ss =>
      simp only [listed_cons_cons, List.length_append, List.length_cons] at ih ⊢
      omega

section

variable {value : List Char → Reading Node} {n : Nat} {s : String} {behind : List Char}

/-- The item before a closing bracket is the last one. -/
theorem items_last (hvalue : value (quoted s ++ behind) = some (.scalar (.text s), behind))
    (hpad : ∀ x ∈ pad, isSpace x = true) (hbehind : skipGaps behind = ']' :: rest) :
    items value (n + 1) (pad ++ (quoted s ++ behind)) = some ([.scalar (.text s)], rest) := by
  obtain ⟨f, cs, hcs⟩ := exists_quoted_eq s
  have hbracket : f.mark ≠ ']' := by cases f <;> decide
  rw [hcs, List.cons_append] at hvalue ⊢
  rw [items, skipGaps_append hpad (isToken_mark f)]
  split
  · rename_i heq
    exact absurd (List.cons.inj heq).1 hbracket
  · simp only [hvalue, hbehind]

/-- The item before a comma is followed by others. -/
theorem items_more (hvalue : value (quoted s ++ behind) = some (.scalar (.text s), behind))
    (hpad : ∀ x ∈ pad, isSpace x = true) (hbehind : skipGaps behind = ',' :: rest) :
    items value (n + 1) (pad ++ (quoted s ++ behind)) =
      (items value n rest).map fun r => (.scalar (.text s) :: r.1, r.2) := by
  obtain ⟨f, cs, hcs⟩ := exists_quoted_eq s
  have hbracket : f.mark ≠ ']' := by cases f <;> decide
  rw [hcs, List.cons_append] at hvalue ⊢
  rw [items, skipGaps_append hpad (isToken_mark f)]
  split
  · rename_i heq
    exact absurd (List.cons.inj heq).1 hbracket
  · simp only [hvalue, hbehind]

/-- **The items of a list** are read up to the closing bracket. -/
theorem items_listed
    (hvalue : ∀ s rest, EndsText rest → value (quoted s ++ rest) = some (.scalar (.text s), rest))
    (ss : List String) (hn : ss.length < n) (hpad : ∀ x ∈ pad, isSpace x = true) :
    items value n (pad ++ (listed ss ++ ']' :: rest)) = some (textNodes ss, rest) := by
  induction ss generalizing n pad with
  | nil =>
    obtain ⟨n, rfl⟩ := Nat.exists_eq_add_one.2 hn
    rw [listed, List.map_nil, List.intercalate_nil, List.nil_append, items,
      skipGaps_append hpad ⟨by decide, by decide, by decide⟩]
    rfl
  | cons s ss ih =>
    obtain ⟨n, rfl⟩ : ∃ m, n = m + 1 := ⟨n - 1, by rw [List.length_cons] at hn; omega⟩
    rw [List.length_cons, Nat.add_lt_add_iff_right] at hn
    cases ss with
    | nil =>
      have hread := hvalue s (']' :: rest) (endsText_cons ⟨by decide, by decide⟩)
      rw [listed, List.map_singleton, List.intercalate_singleton,
        items_last hread hpad (skipGaps_token ⟨by decide, by decide, by decide⟩)]
      rfl
    | cons t ss =>
      have hread := hvalue s (',' :: ' ' :: (listed (t :: ss) ++ ']' :: rest))
        (endsText_cons ⟨by decide, by decide⟩)
      have hspace : ∀ x ∈ [' '], isSpace x = true := fun x hx => List.mem_singleton.1 hx ▸ rfl
      rw [listed_cons_cons, List.append_assoc, List.cons_append, List.cons_append,
        items_more hread hpad (skipGaps_token ⟨by decide, by decide, by decide⟩)]
      change (items value n ([' '] ++ (listed (t :: ss) ++ ']' :: rest))).map _ = _
      rw [ih hn hspace]
      rfl

end

theorem return_not_mem_listed (ss : List String) : '\r' ∉ listed ss := by
  induction ss with
  | nil => exact List.not_mem_nil
  | cons s ss ih =>
    cases ss with
    | nil =>
      rw [listed, List.map_singleton, List.intercalate_singleton]
      exact return_not_mem_quoted s
    | cons t ss =>
      rw [listed_cons_cons]
      simp only [List.mem_append, List.mem_cons, not_or]
      exact ⟨return_not_mem_quoted s, by decide, by decide, ih⟩

/-- **A list of texts is read as a value.** -/
theorem value_listed (ss : List String) :
    value ('[' :: (listed ss ++ ']' :: rest)) = some (.array (textNodes ss), rest) := by
  have henough : ss.length < (listed ss ++ ']' :: rest).length + 1 := by
    have hle := length_le_length_listed ss
    rw [List.length_append]
    omega
  have hread : items (valueWithin (depthLimit - 2 + 1)) ((listed ss ++ ']' :: rest).length + 1)
      ([] ++ (listed ss ++ ']' :: rest)) = some (textNodes ss, rest) :=
    items_listed (fun s _ => valueWithin_quoted (depthLimit - 2) s) ss henough
      fun x hx => absurd hx List.not_mem_nil
  rw [List.nil_append] at hread
  change array (valueWithin (depthLimit - 2 + 1)) (listed ss ++ ']' :: rest) = _
  rw [array, hread]
  rfl

/-! ## Lines -/

/-- A line is read before those behind it. -/
theorem lines_cons {l : Line} {n : Nat} (hne : cs ≠ [])
    (hl : lineContent cs = some (l, '\n' :: rest)) :
    lines (n + 1) cs = (lines n rest).map (l :: ·) := by
  obtain ⟨x, xs, rfl⟩ := List.exists_cons_of_ne_nil hne
  have hend : lineEnd ('\n' :: rest) = some rest := rfl
  simp only [lines, hl, hend]

end Toml

end CompileCommands
