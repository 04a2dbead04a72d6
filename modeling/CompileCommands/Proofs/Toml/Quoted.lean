import CompileCommands.Toml.Quoted
import Mathlib.Data.List.TakeWhile
/-!
# Written texts, read back

Whichever form a text is written in, between its delimiters stand spellings
of its characters, and now and then quotes that stand for themselves
(`Body`). A spelling takes the reader from plain mode to plain mode and adds
its character (`Spells.textFrom`); a quote does so too, unless enough of
them follow to end the text, and of those that end it the first still
belong to it (`Body.textFrom`). The writer keeps within these rules in each
of the four forms (`body_written`), so what it writes is read as the text it
was written for (`text_quoted`).
-/

namespace CompileCommands

namespace Toml

variable {f : TextForm} {c : Char} {p b cs rest : List Char} {k : Nat}

/-- How many quotes in a row a text of the form may hold. -/
def TextForm.spare (f : TextForm) : Nat := if f.isLong then 2 else 0

/-! ## Spellings of a character -/

/-- How a character can be spelled in a text of the form. -/
inductive Spells (f : TextForm) : List Char → Char → Prop
  /-- It stands for itself. -/
  | plain {c : Char} : c ≠ f.mark → (f.escapes = true → c ≠ '\\') →
      (c = '\n' → f.isLong = true) → (c ≠ '\n' → isControl c = false) → Spells f [c] c
  /-- An escape of one letter. -/
  | letter {x c : Char} : f.escapes = true → TextMode.simpleEscape? x = some c →
      Spells f ['\\', x] c
  /-- An escape by number. -/
  | number {c : Char} : f.escapes = true → c.toNat < 0x100 →
      Spells f ['\\', 'u', '0', '0', hexChar (c.toNat / 16), hexChar (c.toNat % 16)] c

theorem mark_eq_of_escapes (hf : f.escapes = true) : f.mark = '"' := by
  cases f with
  | basic => rfl
  | longBasic => rfl
  | literal => cases hf
  | longLiteral => cases hf

/-- No quote ends a text where another character stands. -/
theorem ending?_of_ne (hc : c ≠ f.mark) : f.ending? (c :: rest) = none := by
  have hrun : ((c :: rest).takeWhile (· == f.mark)).length = 0 := by
    rw [List.takeWhile_cons_of_neg (by simpa using hc)]
    rfl
  rw [TextForm.ending?, hrun]
  cases f <;> rfl

/-- One character further, where no text may end. -/
theorem textFrom_step {mode mode' : TextMode} {added : List Char}
    (hend : mode.mayEnd = true → f.ending? (c :: rest) = none)
    (hstep : mode.step f c = some (mode', added)) :
    textFrom f mode (c :: rest) = (textFrom f mode' rest).map fun r => (added ++ r.1, r.2) := by
  have hnone : (if mode.mayEnd then f.ending? (c :: rest) else none) = none := by
    split
    · rename_i hmode
      exact hend hmode
    · rfl
  rw [textFrom, hnone]
  simp only [hstep]

/-- A backslash starts an escape. -/
theorem textFrom_backslash (hf : f.escapes = true) :
    textFrom f .plain ('\\' :: rest) = textFrom f .escape rest := by
  have hmark : '\\' ≠ f.mark := by
    rw [mark_eq_of_escapes hf]
    decide
  have hstep : TextMode.step f .plain '\\' = some (.escape, []) := if_pos ⟨rfl, hf⟩
  rw [textFrom_step (fun _ => ending?_of_ne hmark) hstep]
  simp

/-- And a `u` the digits of one by number. -/
theorem textFrom_u : textFrom f .escape ('u' :: rest) = textFrom f (.digits 4 0) rest := by
  have hstep : TextMode.step f .escape 'u' = some (.digits 4 0, []) := rfl
  rw [textFrom_step (fun hmode => by cases hmode) hstep]
  simp

/-- A digit inside an escape by number. -/
theorem textFrom_digit {left point d : Nat} (hd : hexDigit? c = some d) (hleft : 1 < left) :
    textFrom f (.digits left point) (c :: rest) =
      textFrom f (.digits (left - 1) (16 * point + d)) rest := by
  have hstep : TextMode.step f (.digits left point) c =
      some (.digits (left - 1) (16 * point + d), []) := by
    rw [TextMode.step, TextMode.digitStep, hd]
    exact if_pos hleft
  rw [textFrom_step (fun hmode => by cases hmode) hstep]
  simp

/-- The last digit makes the character. -/
theorem textFrom_lastDigit {point d : Nat} (hd : hexDigit? c = some d)
    (hvalid : (16 * point + d).isValidChar) :
    textFrom f (.digits 1 point) (c :: rest) =
      (textFrom f .plain rest).map fun r => (Char.ofNat (16 * point + d) :: r.1, r.2) := by
  have hstep : TextMode.step f (.digits 1 point) c =
      some (.plain, [Char.ofNat (16 * point + d)]) := by
    rw [TextMode.step, TextMode.digitStep, hd]
    exact if_pos hvalid
  exact textFrom_step (fun hmode => by cases hmode) hstep

theorem hexDigit?_hexChar : ∀ d < 16, hexDigit? (hexChar d) = some d := by decide

theorem hexChar_ne_return : ∀ d < 16, hexChar d ≠ '\r' := by decide

/-- **A spelling is read as its character.** -/
theorem Spells.textFrom (h : Spells f p c) (rest : List Char) :
    textFrom f .plain (p ++ rest) = (textFrom f .plain rest).map fun r => (c :: r.1, r.2) := by
  cases h with
  | plain hmark hslash hbreak hcontrol =>
    have hstep : TextMode.step f .plain c = some (.plain, [c]) := by
      rw [TextMode.step, TextMode.plainStep, if_neg fun h => hslash h.2 h.1]
      by_cases hc : c = '\n'
      · rw [if_pos hc, if_pos (hbreak hc)]
      · rw [if_neg hc, if_neg (by simp [hcontrol hc])]
    exact textFrom_step (fun _ => ending?_of_ne hmark) hstep
  | @letter x _ hf hx =>
    have hstep : TextMode.step f .escape x = some (.plain, [c]) := by
      rw [TextMode.step, TextMode.escapeStep, hx]
    rw [List.cons_append, textFrom_backslash hf]
    exact textFrom_step (fun hmode => by cases hmode) hstep
  | number hf hlt =>
    have hhigh := hexDigit?_hexChar (c.toNat / 16) (by omega)
    have hlow := hexDigit?_hexChar (c.toNat % 16) (by omega)
    have hnumber : 16 * (16 * (16 * (16 * 0 + 0) + 0) + c.toNat / 16) + c.toNat % 16 =
        c.toNat := by omega
    have hvalid : (16 * (16 * (16 * (16 * 0 + 0) + 0) + c.toNat / 16) + c.toNat % 16).isValidChar := by
      rw [hnumber]
      exact c.valid
    simp only [List.cons_append, List.nil_append]
    rw [textFrom_backslash hf, textFrom_u, textFrom_digit (d := 0) rfl (by omega),
      textFrom_digit (d := 0) rfl (by omega), textFrom_digit hhigh (by omega),
      textFrom_lastDigit hlow hvalid, hnumber, Char.ofNat_toNat]

/-- A spelling starts with neither a quote that counts nor, but for a line
break itself, a line break. -/
theorem Spells.exists_cons (h : Spells f p c) :
    ∃ x xs, p = x :: xs ∧ x ≠ f.mark ∧ (x = '\n' → c = '\n') := by
  have hslash : f.escapes = true → '\\' ≠ f.mark := fun hf => by
    rw [mark_eq_of_escapes hf]
    decide
  cases h with
  | plain hmark => exact ⟨c, [], rfl, hmark, id⟩
  | letter hf => exact ⟨'\\', _, rfl, hslash hf, fun h => absurd h (by decide)⟩
  | number hf => exact ⟨'\\', _, rfl, hslash hf, fun h => absurd h (by decide)⟩

theorem Spells.return_not_mem (h : Spells f p c) : '\r' ∉ p := by
  cases h with
  | plain _ _ _ hcontrol =>
    intro hmem
    obtain rfl := List.mem_singleton.1 hmem
    exact absurd (hcontrol (by decide)) (by decide)
  | @letter x _ _ hx =>
    rintro (_ | ⟨_, hmem⟩)
    obtain rfl := List.mem_singleton.1 hmem
    cases hx
  | number _ hlt =>
    have hhigh := hexChar_ne_return (c.toNat / 16) (by omega)
    have hlow := hexChar_ne_return (c.toNat % 16) (by omega)
    simp [hhigh.symm, hlow.symm]

/-! ## What stands between the delimiters -/

/-- What stands between the delimiters of a text of the form, and the text:
spellings of its characters, with no more quotes in a row that stand for
themselves than the form allows. -/
inductive Body (f : TextForm) : List Char → List Char → Prop
  | marks {k : Nat} : k ≤ f.spare → Body f (List.replicate k f.mark) (List.replicate k f.mark)
  | char {k : Nat} {p b cs : List Char} {c : Char} : k ≤ f.spare → Spells f p c → Body f b cs →
      Body f (List.replicate k f.mark ++ (p ++ b)) (List.replicate k f.mark ++ c :: cs)

theorem takeWhile_replicate_append {x : Char} (hrest : rest.head? ≠ some x) (k : Nat) :
    ((List.replicate k x ++ rest).takeWhile (· == x)).length = k := by
  have hmarks : ∀ y ∈ List.replicate k x, (y == x) = true := fun y hy =>
    beq_iff_eq.2 (List.eq_of_mem_replicate hy)
  have hstop : rest.takeWhile (· == x) = [] := by
    cases rest with
    | nil => rfl
    | cons y ys => exact List.takeWhile_cons_of_neg (by simpa using hrest)
  rw [List.takeWhile_append_of_pos hmarks, hstop, List.append_nil, List.length_replicate]

/-- Quotes that do not end a text stand for themselves. -/
theorem textFrom_marks (hk : k ≤ f.spare) (hrest : rest.head? ≠ some f.mark) :
    textFrom f .plain (List.replicate k f.mark ++ rest) =
      (textFrom f .plain rest).map fun r => (List.replicate k f.mark ++ r.1, r.2) := by
  induction k with
  | zero => simp
  | succ k ih =>
    have hlong : f.isLong = true := by
      by_contra hshort
      rw [TextForm.spare, if_neg hshort] at hk
      omega
    have hend : f.ending? (f.mark :: (List.replicate k f.mark ++ rest)) = none := by
      have hrun := takeWhile_replicate_append hrest (k + 1)
      rw [List.replicate_succ, List.cons_append] at hrun
      rw [TextForm.spare, if_pos hlong] at hk
      rw [TextForm.ending?, hrun, if_pos hlong, if_pos (by omega)]
    have hstep : TextMode.step f .plain f.mark = some (.plain, [f.mark]) := by
      cases f <;> decide
    rw [List.replicate_succ, List.cons_append, textFrom_step (fun _ => hend) hstep,
      ih (by omega), Option.map_map]
    rfl

/-- The closing quotes are known by their number, and those that stand
before them are part of the text. -/
theorem ending?_delimiter (hk : k ≤ f.spare) (hrest : rest.head? ≠ some f.mark) :
    f.ending? (List.replicate k f.mark ++ (f.delimiter ++ rest)) =
      some (List.replicate k f.mark, rest) := by
  rw [TextForm.delimiter, ← List.append_assoc, List.replicate_append_replicate, TextForm.ending?,
    takeWhile_replicate_append hrest]
  by_cases hlong : f.isLong = true
  · rw [TextForm.spare, if_pos hlong] at hk
    have hinner : min (k + 3 - 3) 2 = k := by omega
    simp only [if_pos hlong, if_neg (show ¬ k + 3 < 3 by omega), hinner]
    rw [List.drop_left' List.length_replicate]
  · rw [TextForm.spare, if_neg hlong] at hk
    obtain rfl : k = 0 := by omega
    simp only [if_neg hlong, if_neg (show ¬ 0 + 1 = 0 by omega)]
    rfl

/-- A text ends where its closing quotes are found. -/
theorem textFrom_of_ending? {r : List Char × List Char} (hend : f.ending? cs = some r)
    (hne : cs ≠ []) : textFrom f .plain cs = some r := by
  obtain ⟨x, xs, rfl⟩ := List.exists_cons_of_ne_nil hne
  have hfound : (if TextMode.mayEnd .plain then f.ending? (x :: xs) else none) = some r := hend
  rw [textFrom, hfound]

/-- **A body is read up to the closing quotes as the text that it
spells.** -/
theorem Body.textFrom (h : Body f b cs) (hrest : rest.head? ≠ some f.mark) :
    textFrom f .plain (b ++ (f.delimiter ++ rest)) = some (cs, rest) := by
  induction h with
  | marks hk =>
    refine textFrom_of_ending? (ending?_delimiter hk hrest) ?_
    cases f <;> simp [TextForm.delimiter, TextForm.isLong]
  | @char k p b cs c hk hspells _ ih =>
    obtain ⟨x, xs, hp, hx, -⟩ := hspells.exists_cons
    have hfirst : (p ++ (b ++ (f.delimiter ++ rest))).head? ≠ some f.mark := by
      rw [hp, List.cons_append, List.head?_cons]
      exact fun h => hx (Option.some.inj h)
    rw [List.append_assoc, List.append_assoc, textFrom_marks hk hfirst, hspells.textFrom, ih,
      Option.map_some, Option.map_some]

/-- A body that starts with a line break spells one. -/
theorem Body.break_mem (h : Body f b cs) (hb : b.head? = some '\n') : '\n' ∈ cs := by
  have hmark : f.mark ≠ '\n' := by cases f <;> decide
  cases h with
  | @marks k _ =>
    exact absurd (List.eq_of_mem_replicate (List.mem_of_head? hb)) hmark.symm
  | @char k p b cs c _ hspells _ =>
    obtain ⟨x, xs, rfl, -, hbreak⟩ := hspells.exists_cons
    cases k with
    | zero =>
      rw [List.replicate_zero, List.nil_append, List.cons_append, List.head?_cons] at hb
      rw [← hbreak (Option.some.inj hb)]
      exact List.mem_cons_self ..
    | succ k =>
      rw [List.replicate_succ, List.cons_append, List.head?_cons] at hb
      exact absurd (Option.some.inj hb) hmark

theorem Body.return_not_mem (h : Body f b cs) : '\r' ∉ b := by
  have hmarks : ∀ k, '\r' ∉ List.replicate k f.mark := fun k hmem => by
    have hmark := List.eq_of_mem_replicate hmem
    cases f <;> exact absurd hmark (by decide)
  induction h with
  | marks => exact hmarks _
  | char _ hspells _ ih =>
    simp only [List.mem_append, not_or]
    exact ⟨hmarks _, hspells.return_not_mem, ih⟩

/-! ## What the writer puts there -/

/-- A control character can be written by its number. -/
theorem toNat_lt_of_isControl (hc : isControl c = true) : c.toNat < 0x100 := by
  simp only [isControl, Bool.or_eq_true, Bool.and_eq_true, decide_eq_true_eq, beq_iff_eq] at hc
  omega

theorem spells_of_escapeFor? (hf : f.escapes = true) {e : List Char}
    (he : escapeFor? c = some e) : Spells f e c := by
  unfold escapeFor? at he
  split_ifs at he with hslash hb ht hff hr hcontrol
  · obtain rfl := Option.some.inj he
    exact .letter hf (by rw [hslash]; rfl)
  · obtain rfl := Option.some.inj he
    exact .letter hf (by rw [hb]; rfl)
  · obtain rfl := Option.some.inj he
    exact .letter hf (by rw [ht]; rfl)
  · obtain rfl := Option.some.inj he
    exact .letter hf (by rw [hff]; rfl)
  · obtain rfl := Option.some.inj he
    exact .letter hf (by rw [hr]; rfl)
  · obtain rfl := Option.some.inj he
    rw [needsEscape, Bool.and_eq_true] at hcontrol
    exact .number hf (toNat_lt_of_isControl hcontrol.1)

/-- A character without an escape stands for itself. -/
theorem spells_of_escapeFor?_eq_none (hf : f.escapes = true) (he : escapeFor? c = none)
    (hquote : c ≠ '"') (hbreak : c ≠ '\n') : Spells f [c] c := by
  unfold escapeFor? at he
  split_ifs at he with hslash _ _ _ _ hcontrol
  rw [needsEscape, Bool.and_eq_true, bne_iff_ne, not_and, not_not] at hcontrol
  refine .plain (mark_eq_of_escapes hf ▸ hquote) (fun _ => hslash) (fun h => absurd h hbreak)
    fun _ => Bool.eq_false_iff.2 fun h => hbreak (hcontrol h)

/-- A line break stands for itself in a long text. -/
theorem spells_break (hlong : f.isLong = true) : Spells f ['\n'] '\n' :=
  .plain (by cases f <;> decide) (fun _ => by decide) (fun _ => hlong) fun h => absurd rfl h

/-- **Escaped characters are a body**, after as many quotes as have been
counted. -/
theorem body_escaped (hf : f.escapes = true) (cs : List Char) {run : Nat} (hrun : run ≤ f.spare) :
    Body f (List.replicate run f.mark ++ escaped f.isLong run cs)
      (List.replicate run f.mark ++ cs) := by
  induction cs generalizing run with
  | nil =>
    rw [escaped, List.append_nil]
    exact .marks hrun
  | cons c cs ih =>
    have hnext : ∀ {p : List Char}, Spells f p c →
        Body f (List.replicate run f.mark ++ (p ++ escaped f.isLong 0 cs))
          (List.replicate run f.mark ++ c :: cs) := fun hp =>
      .char hrun hp (by simpa using ih (Nat.zero_le _))
    rw [escaped]
    split_ifs with hquote hspare hbreak hlong
    · -- one more quote that stands for itself
      rw [Bool.and_eq_true, decide_eq_true_eq] at hspare
      have hmark : c = f.mark := hquote.trans (mark_eq_of_escapes hf).symm
      have hmore := @ih (run + 1) (by rw [TextForm.spare, if_pos hspare.1]; omega)
      rw [List.replicate_succ', List.append_assoc, List.append_assoc] at hmore
      rw [hquote, ← mark_eq_of_escapes hf]
      exact hmore
    · exact hnext (p := ['\\', '"']) (.letter hf (by rw [hquote]; rfl))
    · exact hnext (p := ['\n']) (hbreak ▸ spells_break hlong)
    · exact hnext (p := ['\\', 'n']) (.letter hf (by rw [hbreak]; rfl))
    · cases he : escapeFor? c with
      | some e => exact hnext (spells_of_escapeFor? hf he)
      | none => exact hnext (spells_of_escapeFor?_eq_none hf he hquote hbreak)

/-- **So are characters as they are**, where no quote is one too many. -/
theorem body_raw (hf : f.escapes = false) (cs : List Char)
    (hcs : ∀ c ∈ cs, needsEscape c = false ∧ (c = '\n' → f.isLong = true)) {run : Nat}
    (hrun : longestRun f.mark run cs ≤ f.spare) :
    Body f (List.replicate run f.mark ++ cs) (List.replicate run f.mark ++ cs) := by
  induction cs generalizing run with
  | nil =>
    rw [List.append_nil]
    exact .marks hrun
  | cons c cs ih =>
    obtain ⟨⟨hescape, hbreak⟩, hcs⟩ := List.forall_mem_cons.1 hcs
    rw [longestRun] at hrun
    split at hrun
    · rename_i hmark
      have hmore := ih hcs hrun
      rw [List.replicate_succ', List.append_assoc] at hmore
      rw [hmark]
      exact hmore
    · rename_i hmark
      rw [Nat.max_le] at hrun
      have hspells : Spells f [c] c := by
        refine .plain hmark (fun h => ?_) hbreak fun hne => ?_
        · rw [hf] at h
          cases h
        · rw [needsEscape, Bool.and_eq_false_iff, bne_eq_false_iff_eq] at hescape
          exact hescape.resolve_right hne
      exact .char hrun.1 hspells (by simpa using ih hcs hrun.2)

/-- A form is chosen without escapes only for characters that can stand as
they are. -/
theorem formOf_spec (cs : List Char) : (formOf cs).escapes = true ∨
    (formOf cs).escapes = false ∧
      (∀ c ∈ cs, needsEscape c = false ∧ (c = '\n' → (formOf cs).isLong = true)) ∧
      longestRun (formOf cs).mark 0 cs ≤ (formOf cs).spare := by
  unfold formOf
  simp only [Bool.and_eq_true, Bool.not_eq_true', beq_iff_eq, decide_eq_true_eq, List.any_eq_false,
    List.contains_eq_mem, decide_eq_false_iff_not, Bool.not_eq_true]
  split_ifs with hbasic hliteral hlongBasic hlongLiteral
  · exact .inl rfl
  · obtain ⟨⟨hdirect, hline⟩, hsingles⟩ := hliteral
    refine .inr ⟨rfl, fun c hc => ⟨hdirect c hc, fun h => absurd (h ▸ hc) hline⟩, ?_⟩
    exact Nat.le_of_eq hsingles
  · exact .inl rfl
  · exact .inr ⟨rfl, fun c hc => ⟨hlongLiteral.1 c hc, fun _ => rfl⟩, hlongLiteral.2⟩
  · exact .inl rfl
  · exact .inl rfl

/-- What is written between the delimiters of a form. -/
def written (f : TextForm) (cs : List Char) : List Char :=
  if f.escapes then escaped f.isLong 0 cs else cs

theorem body_written (cs : List Char) : Body (formOf cs) (written (formOf cs) cs) cs := by
  unfold written
  rcases formOf_spec cs with hescapes | ⟨hescapes, hplain, hrun⟩
  · rw [if_pos hescapes]
    exact body_escaped hescapes cs (Nat.zero_le _)
  · rw [if_neg (by simp [hescapes])]
    exact body_raw hescapes cs hplain hrun

/-! ## Whole texts -/

theorem exists_delimiter_eq (f : TextForm) : ∃ ms, f.delimiter = f.mark :: ms := by
  cases f <;> exact ⟨_, rfl⟩

/-- The delimiter says which form a text has, if a short text is not taken
for a long one. -/
theorem text_delimiter (hshort : f.isLong = false → ∀ t, rest ≠ f.mark :: f.mark :: t) :
    text (f.delimiter ++ rest) = textOf f rest := by
  cases f with
  | longBasic => rfl
  | longLiteral => rfl
  | basic =>
    change text ('"' :: rest) = _
    unfold text
    split
    · rename_i heq
      exact absurd (List.cons.inj heq).2 (hshort rfl _)
    · rename_i heq
      cases heq
    · rename_i heq
      rw [(List.cons.inj heq).2]
    · rename_i heq
      cases heq
    · rename_i hne _
      exact absurd rfl (hne rest)
  | literal =>
    change text ('\'' :: rest) = _
    unfold text
    split
    · rename_i heq
      cases heq
    · rename_i heq
      exact absurd (List.cons.inj heq).2 (hshort rfl _)
    · rename_i heq
      cases heq
    · rename_i heq
      rw [(List.cons.inj heq).2]
    · rename_i hne
      exact absurd rfl (hne rest)

/-- In a short text no quote stands for itself. -/
theorem Body.head?_ne_mark (h : Body f b cs) (hshort : f.isLong = false) :
    b.head? ≠ some f.mark := by
  have hspare : f.spare = 0 := by rw [TextForm.spare, if_neg (by simp [hshort])]
  cases h with
  | marks hk =>
    rw [hspare, Nat.le_zero] at hk
    rw [hk]
    exact nofun
  | char hk hspells _ =>
    obtain ⟨x, xs, rfl, hx, -⟩ := hspells.exists_cons
    rw [hspare, Nat.le_zero] at hk
    rw [hk]
    exact fun h => hx (Option.some.inj h)

/-- The line break that a long text with several lines starts with is left
out. -/
theorem dropBreak_written (cs : List Char) (t : List Char) :
    (if (formOf cs).isLong then
        dropBreak ((if (formOf cs).isLong && cs.contains '\n' then ['\n'] else []) ++
          (written (formOf cs) cs ++ ((formOf cs).delimiter ++ t)))
      else (if (formOf cs).isLong && cs.contains '\n' then ['\n'] else []) ++
        (written (formOf cs) cs ++ ((formOf cs).delimiter ++ t))) =
      written (formOf cs) cs ++ ((formOf cs).delimiter ++ t) := by
  have hbody := body_written cs
  generalize formOf cs = f at hbody ⊢
  generalize written f cs = b at hbody ⊢
  by_cases hlong : f.isLong = true
  · rw [if_pos hlong]
    by_cases hbreak : '\n' ∈ cs
    · rw [if_pos (by simp [hlong, hbreak])]
      rfl
    · rw [if_neg (by simp [hbreak]), List.nil_append]
      -- neither a spelling nor the closing quotes start with a line break
      obtain ⟨ms, hms⟩ := exists_delimiter_eq f
      have hmark : f.mark ≠ '\n' := by cases f <;> decide
      have hfirst : (b ++ (f.delimiter ++ t)).head? ≠ some '\n' := by
        cases b with
        | nil =>
          rw [List.nil_append, hms, List.cons_append, List.head?_cons]
          exact fun h => hmark (Option.some.inj h)
        | cons x xs => exact fun h => hbreak (hbody.break_mem h)
      unfold dropBreak
      split
      · rename_i heq
        rw [heq] at hfirst
        exact absurd rfl hfirst
      · rfl
  · rw [if_neg hlong, if_neg (by simp [hlong]), List.nil_append]

theorem quoted_append (s : String) (rest : List Char) :
    quoted s ++ rest = (formOf s.toList).delimiter ++
      ((if (formOf s.toList).isLong && s.toList.contains '\n' then ['\n'] else []) ++
        (written (formOf s.toList) s.toList ++ ((formOf s.toList).delimiter ++ rest))) := by
  simp only [quoted, quotedAs, written, List.append_assoc]

/-- **A written text is read as the text it was written for**, and the
reader stops right after it. -/
theorem text_quoted (s : String) (hrest : ∀ f : TextForm, rest.head? ≠ some f.mark) :
    text (quoted s ++ rest) = some (s, rest) := by
  have hbody := body_written s.toList
  rw [quoted_append, text_delimiter ?short, textOf, dropBreak_written, hbody.textFrom (hrest _),
    Option.map_some, String.ofList_toList]
  case short =>
    intro hshort t ht
    obtain ⟨ms, hms⟩ := exists_delimiter_eq (formOf s.toList)
    have hdelimiter : (formOf s.toList).delimiter = [(formOf s.toList).mark] := by
      rw [TextForm.delimiter, if_neg (by simp [hshort])]
      rfl
    have hfirst := hbody.head?_ne_mark hshort
    rw [if_neg (by simp [hshort]), List.nil_append] at ht
    cases hb : written (formOf s.toList) s.toList with
    | nil =>
      -- the second quote closes the text, and no third one follows
      rw [hb, hdelimiter, List.nil_append, List.singleton_append] at ht
      refine hrest (formOf s.toList) ?_
      rw [(List.cons.inj ht).2]
      rfl
    | cons x xs =>
      rw [hb] at ht hfirst
      exact hfirst (congrArg some (List.cons.inj ht).1)

/-- A written text starts with a quote. -/
theorem exists_quoted_eq (s : String) : ∃ f : TextForm, ∃ cs, quoted s = f.mark :: cs := by
  obtain ⟨ms, hms⟩ := exists_delimiter_eq (formOf s.toList)
  have hquoted := quoted_append s []
  rw [List.append_nil, hms, List.cons_append] at hquoted
  exact ⟨formOf s.toList, _, hquoted⟩

/-- No carriage return stands in a written text as itself. -/
theorem return_not_mem_quoted (s : String) : '\r' ∉ quoted s := by
  have hbody := body_written s.toList
  have hdelimiter : ∀ f : TextForm, '\r' ∉ f.delimiter := fun f => by cases f <;> decide
  have hquoted := quoted_append s []
  rw [List.append_nil] at hquoted
  rw [hquoted]
  simp only [List.mem_append, not_or]
  refine ⟨hdelimiter _, ?_, hbody.return_not_mem, hdelimiter _, List.not_mem_nil⟩
  split <;> decide

end Toml

end CompileCommands
