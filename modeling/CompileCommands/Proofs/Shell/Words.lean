import CompileCommands.Shell.Quoted
import CompileCommands.Shell.Words
/-!
# Quoted arguments, split again

The words of a command line are the arguments that it was written for.
An argument is read in one of two ways, between double quotes or bare,
and either way the reader ends in a bare word that holds exactly the
argument (`wordsFrom_quote`); the blank between two arguments then ends
the word. Bare arguments are those without a character that a bare word
could not hold as it is.
-/

namespace CompileCommands

namespace Shell

variable {c : Char} {cs w : List Char}

/-- Whatever ends a word is blank, so an argument that holds it stands
between quotes. -/
theorem isBlank_of_isGap (h : isGap c = true) : Text.isBlank c = true := by
  simp only [isGap, Bool.or_eq_true, beq_iff_eq] at h
  rcases h with (rfl | rfl) | rfl <;> decide

/-- The characters that an argument without quotes may hold. -/
def IsBare (c : Char) : Prop := isGap c = false ∧ c ≠ '\''

theorem isBare_of_needsQuotes_eq_false (h : needsQuotes cs = false) : ∀ c ∈ cs, IsBare c := by
  intro c hc
  simp only [needsQuotes, Bool.or_eq_false_iff, List.any_eq_false] at h
  have hcs := h.2 c hc
  simp only [Bool.or_eq_true, beq_iff_eq, not_or] at hcs
  exact ⟨Bool.eq_false_iff.2 fun hgap => hcs.1 (isBlank_of_isGap hgap), hcs.2⟩

/-! ## Reading one argument -/

/-- **Between quotes every character stands for itself**, blanks and line
breaks included, up to the closing quote. -/
theorem wordsFrom_double (rest : List Char) :
    wordsFrom (.double w) (escape cs ++ '"' :: rest) = wordsFrom (.bare (cs.reverse ++ w)) rest := by
  induction cs generalizing w with
  | nil => simp [escape, wordsFrom, Mode.step]
  | cons c cs ih =>
    rw [List.reverse_cons, List.append_assoc, List.singleton_append, ← ih]
    by_cases hc : c = '\\' ∨ c = '"'
    · -- the backslash is dropped, and `c` is not a line break
      have hn : c ≠ '\n' := by rintro rfl; simp at hc
      have hesc : escapesInQuotes c = true := by rcases hc with rfl | rfl <;> decide
      simp [escape, hc, wordsFrom, Mode.step, hn, hesc]
    · obtain ⟨hslash, hquote⟩ := not_or.1 hc
      simp [escape, hslash, hquote, wordsFrom, Mode.step]

/-- **Outside quotes so does every character that may stand there.** -/
theorem wordsFrom_bare (hcs : ∀ c ∈ cs, IsBare c) (rest : List Char) :
    wordsFrom (.bare w) (escape cs ++ rest) = wordsFrom (.bare (cs.reverse ++ w)) rest := by
  induction cs generalizing w with
  | nil => simp [escape]
  | cons c cs ih =>
    obtain ⟨hgap, hsingle⟩ := hcs c (List.mem_cons_self ..)
    rw [List.reverse_cons, List.append_assoc, List.singleton_append,
      ← ih fun x hx => hcs x (List.mem_cons_of_mem _ hx)]
    by_cases hc : c = '\\' ∨ c = '"'
    · have hn : c ≠ '\n' := by rintro rfl; simp at hc
      simp [escape, hc, wordsFrom, Mode.step, isGap, bareMode, hn]
    · obtain ⟨hslash, hquote⟩ := not_or.1 hc
      simp [escape, hslash, hquote, wordsFrom, Mode.step, hgap, bareMode, hsingle]

/-- The first character of a bare argument starts a word, and no
comment. -/
theorem wordsFrom_between_bare (hc : IsBare c) (hhash : c ≠ '#') (rest : List Char) :
    wordsFrom .between (escape [c] ++ rest) = wordsFrom (.bare [c]) rest := by
  obtain ⟨hgap, hsingle⟩ := hc
  by_cases hesc : c = '\\' ∨ c = '"'
  · have hn : c ≠ '\n' := by rintro rfl; simp at hesc
    simp [escape, hesc, wordsFrom, Mode.step, isGap, bareMode, hn]
  · obtain ⟨hslash, hquote⟩ := not_or.1 hesc
    simp [escape, hslash, hquote, wordsFrom, Mode.step, hgap, hhash, bareMode, hsingle]

theorem escape_cons (c : Char) (cs : List Char) : escape (c :: cs) = escape [c] ++ escape cs := by
  by_cases hc : c = '\\' ∨ c = '"' <;> simp [escape, hc]

/-- **An argument is read as one unfinished word**, whichever way it is
written. -/
theorem wordsFrom_quote (cs rest : List Char) :
    wordsFrom .between (quote cs ++ rest) = wordsFrom (.bare cs.reverse) rest := by
  cases hq : needsQuotes cs with
  | true =>
    have h : wordsFrom (.double []) (escape cs ++ '"' :: rest) = _ := wordsFrom_double rest
    rw [List.append_nil] at h
    rw [← h]
    simp [quote, hq, wordsFrom, Mode.step, isGap, bareMode]
  | false =>
    -- only the first character meets the reader between words
    have hbare := isBare_of_needsQuotes_eq_false hq
    rw [quote, if_neg (by simp [hq])]
    cases cs with
    | nil => simp [needsQuotes] at hq
    | cons c cs =>
      have hhash : c ≠ '#' := by rintro rfl; simp [needsQuotes] at hq
      rw [escape_cons, List.append_assoc,
        wordsFrom_between_bare (hbare c (List.mem_cons_self ..)) hhash,
        wordsFrom_bare fun x hx => hbare x (List.mem_cons_of_mem _ hx)]
      simp

/-! ## Reading all arguments -/

/-- A blank ends a word. -/
theorem wordsFrom_bare_blank (rest : List Char) :
    wordsFrom (.bare w) (' ' :: rest) = (wordsFrom .between rest).map (w.reverse :: ·) := by
  simp [wordsFrom, Mode.step, isGap]

/-- **Nothing is lost between arguments.** The words of the quoted
arguments, set apart by blanks, are the arguments. -/
theorem wordsFrom_intercalate_quote (as : List (List Char)) :
    wordsFrom .between (List.intercalate [' '] (as.map quote)) = some as := by
  induction as with
  | nil => rfl
  | cons a as ih =>
    cases as with
    | nil =>
      have h := wordsFrom_quote a []
      rw [List.append_nil] at h
      simp [h, wordsFrom]
    | cons b as =>
      rw [List.map_cons, List.map_cons, List.intercalate_cons_cons, List.append_assoc,
        wordsFrom_quote, ← List.map_cons, List.singleton_append, wordsFrom_bare_blank, ih]
      simp

/-- **A command line has the words it was written for.** -/
theorem words?_commandLine (arguments : List String) :
    words? (commandLine arguments) = some arguments := by
  have h := wordsFrom_intercalate_quote (arguments.map String.toList)
  rw [List.map_map] at h
  rw [words?, commandLine, String.toList_ofList]
  simp only [Function.comp_def] at h
  rw [h]
  simp [List.map_map, Function.comp_def]

end Shell

end CompileCommands
