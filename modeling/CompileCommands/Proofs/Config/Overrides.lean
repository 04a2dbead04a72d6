import CompileCommands.Config.Settings
import CompileCommands.Proofs.Text.Fields
import Mathlib.Data.List.DropRight
import Mathlib.Data.List.Forall2
/-!
# Variables set on a command line

An argument sets a variable to a text (`Override.ofText_eq_ok`), the text
is a list with commas (`Override.isList_iff`), and of several arguments
for one variable the last one counts (`Settings.get?_ofOverrides_of_last`).
-/

namespace CompileCommands

namespace Text

variable {part text : List Char}

/-! ## Texts without the blanks around them -/

/-- Whether a text is what remains of a part without the blanks around
it. -/
def IsTrimmed (part text : List Char) : Prop :=
  ∃ l r, part = l ++ text ++ r ∧ (∀ c ∈ l, isBlank c = true) ∧ (∀ c ∈ r, isBlank c = true) ∧
    (∀ c, text.head? = some c → isBlank c = false) ∧
    ∀ c, text.getLast? = some c → isBlank c = false

theorem isBlank_of_head?_dropWhile (part : List Char) {c : Char}
    (h : (part.dropWhile isBlank).head? = some c) :
    isBlank c = false := by
  have hnot := List.head?_dropWhile_not isBlank part
  rwa [h] at hnot

/-- **Trimming** takes away the blanks around a text. -/
theorem isTrimmed_trim (part : List Char) : IsTrimmed part (trim part) := by
  -- the blanks in front, and those behind what they leave
  refine ⟨part.takeWhile isBlank, (part.dropWhile isBlank).rtakeWhile isBlank, ?_,
    fun c => List.mem_takeWhile_imp, fun c => List.mem_rtakeWhile_imp, ?_, ?_⟩
  · calc part = part.takeWhile isBlank ++ part.dropWhile isBlank :=
          List.takeWhile_append_dropWhile.symm
      _ = part.takeWhile isBlank ++ (trim part ++ (part.dropWhile isBlank).rtakeWhile isBlank) :=
          congrArg _ List.rdropWhile_append_rtakeWhile.symm
      _ = _ := (List.append_assoc ..).symm
  · intro c hc
    obtain ⟨rest, hrest⟩ := List.rdropWhile_prefix isBlank (part.dropWhile isBlank)
    refine isBlank_of_head?_dropWhile part ?_
    rw [← hrest, List.head?_append]
    exact (congrArg (Option.or · rest.head?) hc).trans rfl
  · intro c hc
    rw [trim, trimEnd, List.getLast?_reverse] at hc
    exact isBlank_of_head?_dropWhile _ hc

/-- And there is no other text without them. -/
theorem IsTrimmed.eq_trim (h : IsTrimmed part text) : text = trim part := by
  obtain ⟨l, r, rfl, hl, hr, hfirst, hlast⟩ := h
  rw [trim, List.append_assoc, List.dropWhile_append_of_pos hl]
  have hr' : ∀ c ∈ r.reverse, isBlank c = true := fun c hc => hr c (List.mem_reverse.1 hc)
  cases text with
  | nil =>
    have hnil : r.dropWhile isBlank = [] := List.dropWhile_eq_nil_iff.2 hr
    rw [List.nil_append, hnil]
    rfl
  | cons c cs =>
    have hfront : (c :: cs ++ r).dropWhile isBlank = c :: cs ++ r :=
      List.dropWhile_cons_of_neg (by rw [hfirst c rfl]; exact Bool.false_ne_true)
    have hback : (c :: cs).reverse.dropWhile isBlank = (c :: cs).reverse := by
      obtain ⟨d, ds, hds⟩ := List.exists_cons_of_ne_nil (l := (c :: cs).reverse) (by simp)
      have hd : (c :: cs).getLast? = some d := by
        rw [← List.head?_reverse, hds, List.head?_cons]
      rw [hds, List.dropWhile_cons_of_neg (by rw [hlast d hd]; exact Bool.false_ne_true)]
    rw [hfront, trimEnd, List.reverse_append, List.dropWhile_append_of_pos hr', hback,
      List.reverse_reverse]

end Text

namespace Override

variable {argument key value : String} {v w : Variable} {o : Override} {items : List String}

/-! ## Lists with commas -/

/-- Whether texts are the items of a list with commas: its parts between
the commas without the blanks around them, but for those of which nothing
remains. -/
def IsList (value : String) (items : List String) : Prop :=
  ∃ parts texts : List (List Char), parts ≠ [] ∧ (∀ part ∈ parts, ',' ∉ part) ∧
    value.toList = List.intercalate [','] parts ∧ List.Forall₂ Text.IsTrimmed parts texts ∧
    items = (texts.filter fun text => !text.isEmpty).map String.ofList

/-- **The items are those of the list**, which has no others. -/
theorem isList_iff : IsList value items ↔ items = listItems value := by
  have hfields : ∀ parts : List (List Char), parts ≠ [] → (∀ part ∈ parts, ',' ∉ part) →
      value.toList = List.intercalate [','] parts →
      Text.fields (· == ',') value.toList = parts :=
    fun parts hne hparts hvalue => hvalue ▸ Text.fields_intercalate hne hparts
  constructor
  · rintro ⟨parts, texts, hne, hparts, hvalue, htexts, rfl⟩
    have htrim : List.Forall₂ Eq (parts.map Text.trim) texts :=
      List.forall₂_map_left_iff.2 (htexts.imp fun _ _ htext => htext.eq_trim.symm)
    rw [List.forall₂_eq_eq_eq] at htrim
    rw [listItems, hfields parts hne hparts hvalue, htrim]
  · rintro rfl
    refine ⟨Text.fields (· == ',') value.toList,
      (Text.fields (· == ',') value.toList).map Text.trim, Text.fields_ne_nil _ _, ?_,
      (Text.intercalate_fields ',' _).symm, ?_, rfl⟩
    · intro part hpart hcomma
      have hsep := Text.eq_false_of_mem_fields hpart ',' hcomma
      cases hsep
    · rw [List.forall₂_map_right_iff]
      exact List.forall₂_same.2 fun part _ => Text.isTrimmed_trim part

/-! ## Arguments -/

/-- Whether an argument sets a variable to a text: by its key, an equals
sign and the text, or by its key alone, which stands for `yes`. -/
def Sets (argument : String) (v : Variable) (value : String) : Prop :=
  argument = v.key ++ "=" ++ value ∨ argument = v.key ∧ value = "yes"

theorem ofKey_key (v : Variable) : Variable.ofKey v.key = .ok v := by
  cases v <;> decide

/-- A key is the key of the variable that it names. -/
theorem eq_key_of_ofKey (hkey : Variable.ofKey key = .ok v) : key = v.key := by
  unfold Variable.ofKey at hkey
  split at hkey
  · cases hkey
  · split at hkey
    · rename_i hfound
      cases hkey
      unfold Variable.ofKey? at hfound
      have hbeq := List.find?_some hfound
      exact (eq_of_beq hbeq).symm
    · cases hkey

theorem ofKey_eq_ok : ofKey key value = .ok o ↔ key = o.target.key ∧ value = o.value := by
  unfold ofKey
  constructor
  · intro hkey
    cases hv : Variable.ofKey key with
    | error e => rw [hv] at hkey; cases hkey
    | ok v =>
      rw [hv] at hkey
      cases hkey
      exact ⟨eq_key_of_ofKey hv, rfl⟩
  · rintro ⟨rfl, rfl⟩
    rw [ofKey_key]
    rfl

theorem ne_equals_of_mem_key (v : Variable) : ∀ c ∈ v.key.toList, (c == '=') = false := by
  have hall : (v.key.toList.all fun c => !(c == '=')) = true := by cases v <;> rfl
  intro c hc
  have hnot := List.all_eq_true.1 hall c hc
  rwa [Bool.not_eq_true'] at hnot

/-- **An argument stands for the override that it writes**, and for no
other. -/
theorem ofText_eq_ok : ofText argument = .ok o ↔ Sets argument o.target o.value := by
  unfold ofText Sets
  constructor
  · intro hargument
    split at hargument
    · rename_i k r hcut
      obtain ⟨s, hs, hchars, -⟩ := Text.cut_eq_some.1 hcut
      obtain rfl : s = '=' := eq_of_beq hs
      obtain ⟨hkey, hvalue⟩ := ofKey_eq_ok.1 hargument
      refine .inl (String.toList_inj.1 ?_)
      simp only [String.toList_append, ← hkey, ← hvalue, String.toList_ofList, List.append_assoc]
      exact hchars
    · exact .inr (ofKey_eq_ok.1 hargument |>.imp_right Eq.symm)
  · rintro (rfl | ⟨rfl, hvalue⟩)
    · have hcut : Text.cut (· == '=') (o.target.key ++ "=" ++ o.value).toList =
          some (o.target.key.toList, o.value.toList) := by
        refine Text.cut_eq_some.2 ⟨'=', rfl, ?_, ne_equals_of_mem_key o.target⟩
        rw [String.toList_append, String.toList_append, List.append_assoc]
        rfl
      simp only [hcut]
      exact ofKey_eq_ok.2 ⟨String.ofList_toList, String.ofList_toList⟩
    · simp only [Text.cut_eq_none.2 (ne_equals_of_mem_key o.target)]
      exact ofKey_eq_ok.2 ⟨rfl, hvalue.symm⟩

end Override

namespace Settings

variable {os before after : List Override} {o : Override} {v : Variable}

/-- Overrides of other variables leave a variable alone. -/
theorem get?_foldl_set (hos : ∀ o ∈ os, o.target ≠ v) (s : Settings) :
    (os.foldl (fun s o => s.set o.target (Override.listItems o.value)) s).get? v = s.get? v := by
  induction os generalizing s with
  | nil => rfl
  | cons o os ih =>
    obtain ⟨ho, hos⟩ := List.forall_mem_cons.1 hos
    rw [List.foldl_cons, ih hos, get?_set, if_neg ho.symm]

theorem get?_ofOverrides_of_forall (hos : ∀ o ∈ os, o.target ≠ v) :
    (ofOverrides os).get? v = none :=
  (get?_foldl_set hos empty).trans (get?_empty v)

/-- **The last override of a variable counts.** -/
theorem get?_ofOverrides_of_last (ho : o.target = v) (hafter : ∀ o ∈ after, o.target ≠ v) :
    (ofOverrides (before ++ o :: after)).get? v = some (Override.listItems o.value) := by
  rw [ofOverrides, List.foldl_append, List.foldl_cons, get?_foldl_set hafter, get?_set,
    if_pos ho.symm]

end Settings

end CompileCommands
