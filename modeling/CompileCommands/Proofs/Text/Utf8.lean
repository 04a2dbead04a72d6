import Mathlib.Data.List.Basic
/-!
# The bytes of a text

A text is written to a file as the UTF-8 bytes of its characters, one
after the other. A character below 128 is its own byte; the bytes of any
other character are all at least 128, so no byte that means something to
a reader of ASCII punctuation occurs among them.
-/

namespace CompileCommands

namespace Text

/-- The UTF-8 bytes of a text. -/
def utf8 (cs : List Char) : List UInt8 := cs.flatMap String.utf8EncodeChar

@[simp] theorem utf8_nil : utf8 [] = [] := rfl

theorem utf8_cons (c : Char) (cs : List Char) : utf8 (c :: cs) = String.utf8EncodeChar c ++ utf8 cs :=
  List.flatMap_cons

@[simp] theorem utf8_append (cs ds : List Char) : utf8 (cs ++ ds) = utf8 cs ++ utf8 ds :=
  List.flatMap_append

/-! ## Byte arrays -/

/-- Reading bytes off an array one by one gives its list of bytes. -/
theorem toList_loop (bs : ByteArray) (i : Nat) (r : List UInt8) :
    ByteArray.toList.loop bs i r = r.reverse ++ bs.data.toList.drop i := by
  induction i, r using ByteArray.toList.loop.induct bs with
  | case1 i r hi ih =>
    have hd : i < bs.data.toList.length := by simpa using hi
    rw [ByteArray.toList.loop, if_pos hi, ih, List.reverse_cons, List.append_assoc,
      List.singleton_append, List.drop_eq_getElem_cons hd]
    congr 2
    simp [ByteArray.get!, hi]
  | case2 i r hi =>
    have hd : bs.data.toList.length ≤ i := by simpa using hi
    rw [ByteArray.toList.loop, if_neg hi, List.drop_eq_nil_of_le hd, List.append_nil]

theorem toList_toByteArray (bs : List UInt8) : bs.toByteArray.toList = bs := by
  rw [ByteArray.toList, toList_loop, List.drop_zero, List.toList_data_toByteArray]
  rfl

/-- **What is written is the bytes of the characters.** -/
theorem toList_toUTF8 (s : String) : s.toUTF8.toList = utf8 s.toList := by
  rw [String.toUTF8_eq_toByteArray, ← String.utf8Encode_toList, List.utf8Encode,
    toList_toByteArray, utf8]

/-- **And it is read as the text it was written for.** -/
theorem fromUTF8?_utf8 (s : String) : String.fromUTF8? (utf8 s.toList).toByteArray = some s := by
  have h : (utf8 s.toList).toByteArray = s.toByteArray := String.utf8Encode_toList
  rw [String.fromUTF8?, dif_pos (h ▸ s.isValidUTF8)]
  simp only [h]
  rfl

theorem fromUTF8?_toUTF8 (s : String) : String.fromUTF8? s.toUTF8 = some s :=
  (congrArg String.fromUTF8? String.utf8Encode_toList.symm).trans (fromUTF8?_utf8 s)

/-- Different texts are written differently. -/
theorem utf8_injective : Function.Injective utf8 := by
  intro cs ds h
  have hread := fromUTF8?_utf8 (String.ofList cs)
  rw [String.toList_ofList, h] at hread
  have hother := fromUTF8?_utf8 (String.ofList ds)
  rw [String.toList_ofList] at hother
  exact String.ofList_injective (Option.some.inj (hread.symm.trans hother))

theorem fromUTF8?_eq_some_iff {bs : List UInt8} {s : String} :
    String.fromUTF8? bs.toByteArray = some s ↔ utf8 s.toList = bs := by
  constructor
  · intro hread
    unfold String.fromUTF8? at hread
    split at hread
    · rename_i hvalid
      have hbytes : s.toByteArray = bs.toByteArray := by
        rw [← Option.some.inj hread]
        rfl
      rw [← toList_toByteArray bs, ← hbytes, ← toList_toUTF8]
      rfl
    · cases hread
  · rintro rfl
    exact fromUTF8?_utf8 s

/-! ## Single characters -/

/-- A character below 128 is its own byte. -/
theorem utf8EncodeChar_of_lt {c : Char} (h : c.toNat < 0x80) :
    String.utf8EncodeChar c = [c.toUInt8] := by
  have hv : c.val.toNat ≤ 0x7f := Nat.lt_succ_iff.1 h
  simp only [String.utf8EncodeChar, if_pos hv]
  rfl

theorem toNat_toUInt8_of_lt {c : Char} (h : c.toNat < 0x80) : c.toUInt8.toNat = c.toNat := by
  have hv : c.toUInt8.toNat = c.toNat % 2 ^ 8 := UInt32.toNat_toUInt8 c.val
  omega

/-- Characters below 128 are told apart by their bytes. -/
theorem toUInt8_inj_of_lt {c d : Char} (hc : c.toNat < 0x80) (hd : d.toNat < 0x80)
    (h : c.toUInt8 = d.toUInt8) : c = d := by
  apply Char.toNat_inj.1
  rw [← toNat_toUInt8_of_lt hc, ← toNat_toUInt8_of_lt hd, h]

/-- Any other has only bytes from 128 on. -/
theorem le_of_mem_utf8EncodeChar {c : Char} (h : 0x80 ≤ c.toNat) {b : UInt8}
    (hb : b ∈ String.utf8EncodeChar c) : 0x80 ≤ b.toNat := by
  have hv : ¬ c.val.toNat ≤ 0x7f := by
    have : c.toNat = c.val.toNat := rfl
    omega
  simp only [String.utf8EncodeChar, if_neg hv] at hb
  split_ifs at hb <;>
    simp only [List.mem_cons, List.not_mem_nil, or_false] at hb <;>
    rcases hb with rfl | rfl | rfl | rfl <;>
    simp only [UInt8.toNat_ofNat'] <;>
    omega

end Text

end CompileCommands
