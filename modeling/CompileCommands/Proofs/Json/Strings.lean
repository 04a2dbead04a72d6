import CompileCommands.Json.Quoted
import CompileCommands.Json.Scalar
import CompileCommands.Proofs.Text.Utf8
/-!
# Strings of JSON, read back

A string is written character by character and read byte by byte. The
two meet at the character: the bytes of a written character, whichever
escape it has, take the reader from plain mode to plain mode and add the
bytes of the character itself (`stringFrom_escapeChar`). A whole string
is the run over its characters, and `keptString_quoted` is the text that
was written.
-/

namespace CompileCommands

namespace Json

open Text

variable {v rest : List UInt8} {c : Char}

/-! ## Characters that stand for themselves -/

/-- The bytes that the reader keeps as they are. -/
def IsPlain (b : UInt8) : Prop := b ≠ byte '"' ∧ b ≠ byte '\\' ∧ ¬ b < 0x20

theorem stringFrom_plain {bs : List UInt8} (h : ∀ b ∈ bs, IsPlain b) :
    stringFrom true .plain v (bs ++ rest) = stringFrom true .plain (bs.reverse ++ v) rest := by
  induction bs generalizing v with
  | nil => rfl
  | cons b bs ih =>
    obtain ⟨hquote, hslash, hlt⟩ := h b (List.mem_cons_self ..)
    rw [List.cons_append, stringFrom, StringMode.step, if_neg hquote, if_neg hslash, if_neg hlt]
    rw [List.reverse_cons, List.append_assoc]
    exact ih fun x hx => h x (List.mem_cons_of_mem _ hx)

/-- A byte of a character that needs no escape is kept: below 128 it is
the character itself, and otherwise it is at least 128. -/
theorem isPlain_of_mem (hquote : c ≠ '"') (hslash : c ≠ '\\') (hlt : ¬ c.toNat < 0x20) :
    ∀ b ∈ String.utf8EncodeChar c, IsPlain b := by
  intro b hb
  by_cases hc : c.toNat < 0x80
  · rw [utf8EncodeChar_of_lt hc, List.mem_singleton] at hb
    subst hb
    refine ⟨fun h => hquote (toUInt8_inj_of_lt hc (by decide) h),
      fun h => hslash (toUInt8_inj_of_lt hc (by decide) h), ?_⟩
    rw [UInt8.lt_iff_toNat_lt, toNat_toUInt8_of_lt hc]
    exact hlt
  · have hb := le_of_mem_utf8EncodeChar (Nat.not_lt.1 hc) hb
    refine ⟨?_, ?_, ?_⟩
    · rintro rfl
      exact absurd hb (by decide)
    · rintro rfl
      exact absurd hb (by decide)
    · rw [UInt8.lt_iff_toNat_lt]
      exact Nat.not_lt.2 (Nat.le_trans (by decide) hb)

/-! ## Escapes -/

/-- An escape of one letter adds what it stands for. -/
theorem stringFrom_letter {b x : UInt8} (hu : b ≠ byte 'u') (hx : simpleEscape? b = some x) :
    stringFrom true .plain v (byte '\\' :: b :: rest) = stringFrom true .plain (x :: v) rest := by
  have hq : byte '\\' ≠ byte '"' := by decide
  simp [stringFrom, StringMode.step, hq, hu, hx]

/-- Four digits add the character that they number. -/
theorem stringFrom_digits {d₁ d₂ d₃ d₄ : UInt8} {n : Nat}
    (hn : hexNumber? [d₄, d₃, d₂, d₁] = some n) (hlt : n < 0xD800) (rest : List UInt8) :
    stringFrom true .plain v (byte '\\' :: byte 'u' :: d₁ :: d₂ :: d₃ :: d₄ :: rest) =
      stringFrom true .plain ((encodePoint n).reverse ++ v) rest := by
  have hq : byte '\\' ≠ byte '"' := by decide
  have hlow : isLowSurrogate n = false := by
    simp only [isLowSurrogate, Bool.and_eq_false_iff, decide_eq_false_iff_not]
    omega
  have hhigh : isHighSurrogate n = false := by
    simp only [isHighSurrogate, Bool.and_eq_false_iff, decide_eq_false_iff_not]
    omega
  simp [stringFrom, StringMode.step, hq, hn, unitStep, hlow, hhigh]

/-- The written digits of a control character number it. -/
theorem hexNumber?_hexChar : ∀ n < 0x20,
    utf8 ['\\', 'u', '0', '0', hexChar (n / 16), hexChar (n % 16)] =
        [byte '\\', byte 'u', byte '0', byte '0', byte (hexChar (n / 16)),
          byte (hexChar (n % 16))] ∧
      hexNumber? [byte (hexChar (n % 16)), byte (hexChar (n / 16)), byte '0', byte '0'] =
        some n := by
  decide

/-! ## Whole strings -/

/-- **A written character is read as itself.** -/
theorem stringFrom_escapeChar (c : Char) :
    stringFrom true .plain v (utf8 (escapeChar c) ++ rest) =
      stringFrom true .plain ((String.utf8EncodeChar c).reverse ++ v) rest := by
  -- seven characters have an escape of one letter, and the other controls one of four digits
  unfold escapeChar
  split_ifs with hquote hslash hb ht hn hf hr hlt
  · subst hquote; exact stringFrom_letter (by decide) (by decide)
  · subst hslash; exact stringFrom_letter (by decide) (by decide)
  · subst hb; exact stringFrom_letter (by decide) (by decide)
  · subst ht; exact stringFrom_letter (by decide) (by decide)
  · subst hn; exact stringFrom_letter (by decide) (by decide)
  · subst hf; exact stringFrom_letter (by decide) (by decide)
  · subst hr; exact stringFrom_letter (by decide) (by decide)
  · obtain ⟨hbytes, hnum⟩ := hexNumber?_hexChar c.toNat hlt
    have h := stringFrom_digits (v := v) hnum (by omega) rest
    rw [encodePoint, Char.ofNat_toNat] at h
    rw [hbytes]
    exact h
  · rw [utf8_cons, utf8_nil, List.append_nil]
    exact stringFrom_plain (isPlain_of_mem hquote hslash hlt)

theorem stringFrom_flatMap_escapeChar (cs : List Char) :
    stringFrom true .plain v (utf8 (cs.flatMap escapeChar) ++ rest) =
      stringFrom true .plain ((utf8 cs).reverse ++ v) rest := by
  induction cs generalizing v with
  | nil => rfl
  | cons c cs ih =>
    rw [List.flatMap_cons, utf8_append, List.append_assoc, stringFrom_escapeChar, ih, utf8_cons,
      List.reverse_append, List.append_assoc]

/-- **A written string is read as the text it was written for**, and the
reader stops right after it. -/
theorem keptString_quoted (text : String) (rest : List UInt8) :
    keptString (utf8 (text.toList.flatMap escapeChar ++ ['"']) ++ rest) = .ok (text, rest) := by
  have hclose : ∀ v, stringFrom true .plain v (byte '"' :: rest) = .ok (v.reverse, rest) :=
    fun v => by simp [stringFrom, StringMode.step]
  have hrun : stringFrom true .plain [] (utf8 (text.toList.flatMap escapeChar ++ ['"']) ++ rest) =
      .ok (utf8 text.toList, rest) := by
    rw [utf8_append, List.append_assoc, stringFrom_flatMap_escapeChar, List.append_nil]
    exact (hclose _).trans (by rw [List.reverse_reverse])
  rw [keptString, hrun]
  simp only [fromUTF8?_utf8]

end Json

end CompileCommands
