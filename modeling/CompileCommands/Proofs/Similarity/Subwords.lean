import CompileCommands.Proofs.Text.Fields
import CompileCommands.Similarity.Subwords
import Mathlib.Data.List.Chain
/-!
# Names and their subwords

A stretch of word characters has one division into subwords: none is
empty, none starts inside another, and one starts wherever two of them
meet (`splitWord_eq_iff`). Whether a subword starts at a character hangs
on the next character too, which may belong to the next subword. That one
starts with a capital, and a capital says no more than the end of the
text does (`startsSubword_some_of_isUpper`), so that all conditions can be
read inside the subwords. Hence a subword, split again, is itself.
-/

namespace CompileCommands

variable {b c d : Char} {cs rest v w : List Char} {vs ws : List (List Char)}

/-! ## Where a subword starts -/

/-- A subword that follows another starts with a capital. -/
theorem isUpper_of_startsSubword {after : Option Char} (h : startsSubword b c after = true) :
    c.isUpper = true := by
  simp only [startsSubword, Bool.or_eq_true, Bool.and_eq_true] at h
  rcases h with ⟨-, hc⟩ | ⟨⟨-, hc⟩, -⟩
  · exact hc
  · exact hc

/-- A capital is neither a small letter nor a digit. -/
theorem isSmall_eq_false_of_isUpper (h : c.isUpper = true) : isSmall c = false := by
  have hcapital : 'A'.val ≤ c.val ∧ c.val ≤ 'Z'.val := of_decide_eq_true h
  have hsmall : isSmall c = (('a'.val ≤ c.val && c.val ≤ 'z'.val) ||
      ('0'.val ≤ c.val && c.val ≤ '9'.val)) := rfl
  grind

/-- **A capital that comes next** says as much as the end of the text. -/
theorem startsSubword_some_of_isUpper (h : d.isUpper = true) :
    startsSubword b c (some d) = startsSubword b c none := by
  simp [startsSubword, isSmall_eq_false_of_isUpper h]

/-! ## Divisions -/

/-- No subword starts inside the stretch. -/
def Unbroken : List Char → Prop
  | c :: d :: rest => startsSubword c d rest.head? = false ∧ Unbroken (d :: rest)
  | _ => True

/-- A subword starts where `w` comes after `v`. -/
def Adjoins (v w : List Char) : Prop :=
  ∃ c ∈ v.getLast?, ∃ d rest, w = d :: rest ∧ startsSubword c d rest.head? = true

/-- A stretch in parts that meet exactly where a subword starts. Every
condition is on one part, or on two that meet. -/
structure IsDivision (cs : List Char) (ws : List (List Char)) : Prop where
  flatten_eq : ws.flatten = cs
  nonempty : ∀ w ∈ ws, w ≠ []
  unbroken : ∀ w ∈ ws, Unbroken w
  adjoin : ws.IsChain Adjoins

/-- What may come after a part hangs on its last character only. -/
theorem isChain_adjoins_cons_iff :
    ((c :: d :: v) :: vs).IsChain Adjoins ↔ ((d :: v) :: vs).IsChain Adjoins := by
  simp only [List.isChain_cons, Adjoins, List.getLast?_cons_cons]

/-- **No start is decided outside of its part.** -/
theorem startsSubword_flatten (h : ((d :: v) :: vs).IsChain Adjoins) :
    startsSubword c d (v ++ vs.flatten).head? = startsSubword c d v.head? := by
  cases v with
  | cons a v => rfl
  | nil =>
    cases vs with
    | nil => rfl
    | cons w vs =>
      -- what comes next begins a part, so it is a capital
      obtain ⟨_, -, a, rest, rfl, hstarts⟩ := (List.isChain_cons_cons.1 h).1
      exact startsSubword_some_of_isUpper (isUpper_of_startsSubword hstarts)

namespace IsDivision

/-- The first character begins the first part. -/
theorem exists_cons (h : IsDivision (c :: cs) ws) :
    ∃ v vs, ws = (c :: v) :: vs ∧ v ++ vs.flatten = cs := by
  cases ws with
  | nil => exact absurd h.flatten_eq (List.cons_ne_nil c cs).symm
  | cons w vs =>
    cases w with
    | nil => exact absurd rfl (h.nonempty [] (List.mem_cons_self ..))
    | cons a v =>
      obtain ⟨rfl, hcs⟩ := List.cons.inj h.flatten_eq
      exact ⟨v, vs, rfl, hcs⟩

/-- What the first part leaves is divided into the others. -/
theorem tail (h : IsDivision (c :: cs) ([c] :: vs)) : IsDivision cs vs where
  flatten_eq := (List.cons.inj h.flatten_eq).2
  nonempty := (List.forall_mem_cons.1 h.nonempty).2
  unbroken := (List.forall_mem_cons.1 h.unbroken).2
  adjoin := h.adjoin.tail

theorem nil_iff : IsDivision [] ws ↔ ws = [] := by
  constructor
  · intro h
    exact List.eq_nil_iff_forall_not_mem.2 fun w hw =>
      h.nonempty w hw (List.flatten_eq_nil_iff.1 h.flatten_eq w hw)
  · rintro rfl
    exact ⟨rfl, by simp, by simp, List.isChain_nil⟩

/-- A stretch inside which no subword starts is one part. -/
theorem of_unbroken (hne : w ≠ []) (hw : Unbroken w) : IsDivision w [w] where
  flatten_eq := List.flatten_singleton
  nonempty := List.forall_mem_singleton.2 hne
  unbroken := List.forall_mem_singleton.2 hw
  adjoin := List.isChain_singleton w

theorem singleton_iff : IsDivision [c] ws ↔ ws = [[c]] := by
  constructor
  · intro h
    obtain ⟨v, vs, rfl, hcs⟩ := h.exists_cons
    obtain ⟨rfl, -⟩ := List.append_eq_nil_iff.1 hcs
    rw [nil_iff.1 h.tail]
  · rintro rfl
    exact of_unbroken (List.cons_ne_nil c []) trivial

/-- Where a subword starts, the character before it is a part. -/
theorem cons_of_starts (hstarts : startsSubword c d rest.head? = true)
    (h : IsDivision (d :: rest) vs) : IsDivision (c :: d :: rest) ([c] :: vs) := by
  obtain ⟨v, vs, rfl, rfl⟩ := h.exists_cons
  rw [startsSubword_flatten h.adjoin] at hstarts
  exact ⟨rfl, List.forall_mem_cons.2 ⟨List.cons_ne_nil c [], h.nonempty⟩,
    List.forall_mem_cons.2 ⟨trivial, h.unbroken⟩,
    List.isChain_cons_cons.2 ⟨⟨c, rfl, d, v, rfl, hstarts⟩, h.adjoin⟩⟩

/-- Where none starts, the character before it goes to the first part. -/
theorem cons_of_not_starts (hstarts : startsSubword c d rest.head? = false)
    (h : IsDivision (d :: rest) ((d :: v) :: vs)) :
    IsDivision (c :: d :: rest) ((c :: d :: v) :: vs) := by
  obtain rfl : v ++ vs.flatten = rest := (List.cons.inj h.flatten_eq).2
  rw [startsSubword_flatten h.adjoin] at hstarts
  obtain ⟨hhead, htail⟩ := List.forall_mem_cons.1 h.unbroken
  exact ⟨rfl, List.forall_mem_cons.2
      ⟨List.cons_ne_nil c _, (List.forall_mem_cons.1 h.nonempty).2⟩,
    List.forall_mem_cons.2 ⟨⟨hstarts, hhead⟩, htail⟩, isChain_adjoins_cons_iff.2 h.adjoin⟩

/-- **There is no other division.** -/
theorem cons_cases (h : IsDivision (c :: d :: rest) ws) :
    (startsSubword c d rest.head? = true ∧
      ∃ vs, ws = [c] :: vs ∧ IsDivision (d :: rest) vs) ∨
    (startsSubword c d rest.head? = false ∧
      ∃ v vs, ws = (c :: d :: v) :: vs ∧ IsDivision (d :: rest) ((d :: v) :: vs)) := by
  obtain ⟨v, vs, rfl, hcs⟩ := h.exists_cons
  cases v with
  | nil =>
    -- the part after `c` begins with `d`
    have hrest := h.tail
    refine .inl ⟨?_, vs, rfl, hrest⟩
    obtain ⟨v, vs, rfl, rfl⟩ := hrest.exists_cons
    obtain ⟨_, hc, _, _, hv, hstarts⟩ := (List.isChain_cons_cons.1 h.adjoin).1
    obtain rfl := Option.some.inj hc
    obtain ⟨rfl, rfl⟩ := List.cons.inj hv
    rwa [startsSubword_flatten hrest.adjoin]
  | cons a v =>
    obtain ⟨rfl, rfl⟩ : a = d ∧ v ++ vs.flatten = rest := List.cons.inj hcs
    obtain ⟨hhead, htail⟩ := List.forall_mem_cons.1 h.unbroken
    have hadjoin := isChain_adjoins_cons_iff.1 h.adjoin
    refine .inr ⟨(startsSubword_flatten hadjoin).trans hhead.1, v, vs, rfl, rfl, ?_, ?_, hadjoin⟩
    · exact List.forall_mem_cons.2
        ⟨List.cons_ne_nil a v, (List.forall_mem_cons.1 h.nonempty).2⟩
    · exact List.forall_mem_cons.2 ⟨hhead.2, htail⟩

end IsDivision

/-- **A stretch has one division**, and it is the one into its subwords. -/
theorem splitWord_eq_iff : splitWord cs = ws ↔ IsDivision cs ws := by
  -- `ws` is any division, so that the induction gives that there is one and no other
  fun_induction splitWord cs generalizing ws with
  | case1 => rw [IsDivision.nil_iff, eq_comm]
  | case2 c => rw [IsDivision.singleton_iff, eq_comm]
  | case3 c d rest hstarts ih =>
    constructor
    · rintro rfl
      exact .cons_of_starts hstarts (ih.1 rfl)
    · intro h
      obtain ⟨-, vs, rfl, hvs⟩ | ⟨hnot, -⟩ := h.cons_cases
      · rw [ih.2 hvs]
      · exact absurd hstarts (Bool.eq_false_iff.1 hnot)
  | case4 c d rest hnot hnil ih =>
    -- a stretch that is not empty has a subword
    obtain ⟨_, _, hcons, -⟩ := (ih.1 hnil).exists_cons
    cases hcons
  | case5 c d rest hnot w vs hsplit ih =>
    obtain ⟨v, _, hcons, -⟩ := (ih.1 hsplit).exists_cons
    obtain ⟨rfl, rfl⟩ := List.cons.inj hcons
    constructor
    · rintro rfl
      exact .cons_of_not_starts (Bool.eq_false_iff.2 hnot) (ih.1 hsplit)
    · intro h
      obtain ⟨hstarts, -⟩ | ⟨-, u, us, rfl, hus⟩ := h.cons_cases
      · exact absurd hstarts hnot
      · obtain ⟨hhead, rfl⟩ := List.cons.inj (hsplit.symm.trans (ih.2 hus))
        rw [hhead]

theorem isDivision_splitWord (cs : List Char) : IsDivision cs (splitWord cs) :=
  splitWord_eq_iff.1 rfl

/-- **A subword is not split again**: no subword starts inside it, also
when nothing stands after it. -/
theorem splitWord_of_mem_splitWord (h : w ∈ splitWord cs) : splitWord w = [w] := by
  have hne : w ≠ [] := (isDivision_splitWord cs).nonempty w h
  have hunbroken : Unbroken w := (isDivision_splitWord cs).unbroken w h
  exact splitWord_eq_iff.2 (.of_unbroken hne hunbroken)

/-! ## Names -/

/-- Words are made of ASCII letters and digits. -/
theorem isWordChar_eq_isAlphanum : isWordChar = Char.isAlphanum := rfl

/-- A name without separators is one stretch. -/
theorem subwords_ofList (h : ∀ c ∈ cs, c.isAlphanum = true) :
    subwords (String.ofList cs) = (splitWord cs).map String.ofList := by
  have hfields : Text.fields (fun c => !isWordChar c) cs = [cs] :=
    Text.fields_of_forall fun c hc => by rw [isWordChar_eq_isAlphanum, h c hc, Bool.not_true]
  rw [subwords, String.toList_ofList, hfields, List.flatMap_singleton]

/-- A subword of a name is one of a stretch of word characters. -/
theorem exists_of_mem_subwords {name s : String} (h : s ∈ subwords name) :
    ∃ cs, (∀ c ∈ cs, c.isAlphanum = true) ∧ ∃ w ∈ splitWord cs, String.ofList w = s := by
  obtain ⟨w, hw, rfl⟩ := List.mem_map.1 h
  obtain ⟨cs, hcs, hw⟩ := List.mem_flatMap.1 hw
  refine ⟨cs, fun c hc => ?_, w, hw, rfl⟩
  have hsep : (!isWordChar c) = false := Text.eq_false_of_mem_fields hcs c hc
  rwa [Bool.not_eq_false'] at hsep

/-- **Only the separators are lost**, and nothing is added. -/
theorem join_subwords (name : String) :
    String.join (subwords name) = String.ofList (name.toList.filter Char.isAlphanum) := by
  rw [← String.toList_inj, String.toList_join, String.toList_ofList]
  calc (subwords name).flatMap String.toList
      = ((Text.fields (fun c => !isWordChar c) name.toList).flatMap splitWord).flatten := by
        simp [subwords, List.flatMap_map]
    _ = (Text.fields (fun c => !isWordChar c) name.toList).flatten := by
        simp only [List.flatMap, List.flatten_flatten, List.map_map, Function.comp_def,
          (isDivision_splitWord _).flatten_eq, List.map_id']
    _ = name.toList.filter Char.isAlphanum := by
        rw [Text.flatten_fields]
        simp only [Bool.not_not, isWordChar_eq_isAlphanum]

theorem ne_empty_of_mem_subwords {name s : String} (h : s ∈ subwords name) : s ≠ "" := by
  obtain ⟨cs, -, w, hw, rfl⟩ := exists_of_mem_subwords h
  intro hempty
  rw [← String.toList_eq_nil_iff, String.toList_ofList] at hempty
  exact (isDivision_splitWord cs).nonempty w hw hempty

theorem subwords_of_mem_subwords {name s : String} (h : s ∈ subwords name) :
    subwords s = [s] := by
  obtain ⟨cs, hcs, w, hw, rfl⟩ := exists_of_mem_subwords h
  have hchars : ∀ c ∈ w, c.isAlphanum = true := by
    intro c hc
    have hmem : c ∈ (splitWord cs).flatten := List.mem_flatten_of_mem hw hc
    rw [(isDivision_splitWord cs).flatten_eq] at hmem
    exact hcs c hmem
  rw [subwords_ofList hchars, splitWord_of_mem_splitWord hw, List.map_singleton]

/-- **A separator divides the subwords** into those before it and those
after. -/
theorem subwords_append_separator {x : Char} (hx : x.isAlphanum = false) (name other : String) :
    subwords (name ++ String.singleton x ++ other) = subwords name ++ subwords other := by
  have hfields : Text.fields (fun c => !isWordChar c) (name.toList ++ x :: other.toList) =
      Text.fields (fun c => !isWordChar c) name.toList ++
        Text.fields (fun c => !isWordChar c) other.toList := by
    refine Text.fields_append ?_ name.toList other.toList
    rw [isWordChar_eq_isAlphanum, hx, Bool.not_false]
  simp only [subwords, String.toList_append, String.toList_singleton, List.append_assoc,
    List.singleton_append, hfields, List.flatMap_append, List.map_append]

/-- **A name is kept in its subwords.** Joined they are the name without
its separators; none is empty, and each is its own only subword; and a
separator divides them into those before it and those after. Between
separators they meet exactly where a subword starts. -/
theorem subwords_lossless_and_stable (name : String) :
    String.join (subwords name) = String.ofList (name.toList.filter Char.isAlphanum) ∧
    (∀ w ∈ subwords name, w ≠ "" ∧ subwords w = [w]) ∧
    (∀ (other : String) (x : Char), x.isAlphanum = false →
      subwords (name ++ String.singleton x ++ other) = subwords name ++ subwords other) ∧
    ((∀ c ∈ name.toList, c.isAlphanum = true) →
      IsDivision name.toList ((subwords name).map String.toList)) := by
  refine ⟨join_subwords name,
    fun w hw => ⟨ne_empty_of_mem_subwords hw, subwords_of_mem_subwords hw⟩,
    fun other x hx => subwords_append_separator hx name other, fun hchars => ?_⟩
  have hname : subwords name = (splitWord name.toList).map String.ofList := by
    rw [← subwords_ofList hchars, String.ofList_toList]
  rw [hname, ← splitWord_eq_iff]
  simp

/-- An acronym and a word, before a letter that is no word character. -/
theorem subwords_lossless_and_stable_acronym :
    "NS" ∈ subwords "NSString8" ∧ "NS" ≠ "" ∧ subwords "NS" = ["NS"] ∧
      'é'.isAlphanum = false ∧
      subwords ("NSString8" ++ String.singleton 'é' ++ "utf-8") = ["NS", "String8", "utf", "8"] ∧
      (∀ c ∈ "NSString8".toList, c.isAlphanum = true) ∧
      IsDivision "NSString8".toList ["NS".toList, "String8".toList] := by
  have hname : subwords "NSString8" = ["NS", "String8"] := by decide
  have hmem : "NS" ∈ subwords "NSString8" := by
    rw [hname]
    exact List.mem_cons_self ..
  have hsep : 'é'.isAlphanum = false := by decide
  have hchars : ∀ c ∈ "NSString8".toList, c.isAlphanum = true := List.all_eq_true.1 (by decide)
  obtain ⟨-, hwords, happend, hdivision⟩ := subwords_lossless_and_stable "NSString8"
  obtain ⟨hne, hstable⟩ := hwords "NS" hmem
  refine ⟨hmem, hne, hstable, hsep, ?_, hchars, ?_⟩
  · rw [happend "utf-8" 'é' hsep, hname]
    decide
  · have hparts := hdivision hchars
    rwa [hname] at hparts

end CompileCommands
