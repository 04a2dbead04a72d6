import CompileCommands.Text.Fields
import Mathlib.Algebra.GroupWithZero.Nat
import Mathlib.Data.List.Basic
/-!
# Fields of joined texts

Cutting a text that was put together at its separators gives back what
it was put together from. A text that is cut once, at its first or at its
last separator, is the two sides with that separator between them.
-/

namespace CompileCommands

namespace Text

variable {α : Type} {sep : α → Bool} {s : α} {xs f l r : List α}

/-- **A separator divides the fields** into those before it and those
after. -/
theorem fields_append (hs : sep s = true) (xs ys : List α) :
    fields sep (xs ++ s :: ys) = fields sep xs ++ fields sep ys := by
  induction xs with
  | nil => simp [fields, hs]
  | cons x xs ih =>
    rw [List.cons_append, fields, fields, ih]
    split
    · rfl
    · cases hf : fields sep xs with
      | nil => exact absurd hf (fields_ne_nil _ _)
      | cons f fs => rfl

/-- A text without separators is one field. -/
theorem fields_of_forall (h : ∀ x ∈ xs, sep x = false) : fields sep xs = [xs] := by
  induction xs with
  | nil => rfl
  | cons x xs ih =>
    rw [fields, ih fun y hy => h y (List.mem_cons_of_mem _ hy)]
    simp [h x (List.mem_cons_self ..)]

/-- No field holds a separator. -/
theorem eq_false_of_mem_fields (hf : f ∈ fields sep xs) : ∀ x ∈ f, sep x = false := by
  induction xs generalizing f with
  | nil =>
    obtain rfl : f = [] := by simpa [fields] using hf
    simp
  | cons x xs ih =>
    cases hsep : sep x with
    | true =>
      rw [fields, if_pos hsep] at hf
      rcases List.mem_cons.1 hf with rfl | hf
      · simp
      · exact ih hf
    | false =>
      rw [fields, if_neg (by simp [hsep])] at hf
      cases hxs : fields sep xs with
      | nil => exact absurd hxs (fields_ne_nil _ _)
      | cons g gs =>
        simp only [hxs] at hf ih
        rcases List.mem_cons.1 hf with rfl | hf
        · intro y hy
          rcases List.mem_cons.1 hy with rfl | hy
          · exact hsep
          · exact ih (List.mem_cons_self ..) y hy
        · exact ih (List.mem_cons_of_mem _ hf)

theorem not_mem_of_mem_fields {cs piece : List Char} {c : Char} (h : piece ∈ fields (· == c) cs) :
    c ∉ piece := by
  intro hc
  have hsep := eq_false_of_mem_fields h c hc
  exact ne_of_beq_false hsep rfl

/-- What is no separator stands in a field. -/
theorem mem_fields_or {x : α} (sep : α → Bool) (hx : x ∈ xs) :
    sep x = true ∨ ∃ f ∈ fields sep xs, x ∈ f := by
  induction xs with
  | nil => exact absurd hx List.not_mem_nil
  | cons y ys ih =>
    rw [fields]
    by_cases hy : sep y = true
    · rw [if_pos hy]
      rcases List.mem_cons.1 hx with rfl | hx
      · exact .inl hy
      · refine (ih hx).imp_right ?_
        rintro ⟨f, hf, hxf⟩
        exact ⟨f, List.mem_cons_of_mem _ hf, hxf⟩
    · rw [if_neg hy]
      cases hfs : fields sep ys with
      | nil => exact absurd hfs (fields_ne_nil _ _)
      | cons g gs =>
        rw [hfs] at ih
        rcases List.mem_cons.1 hx with rfl | hx
        · exact .inr ⟨x :: g, List.mem_cons_self .., List.mem_cons_self ..⟩
        · refine (ih hx).imp_right ?_
          rintro ⟨f, hf, hxf⟩
          rcases List.mem_cons.1 hf with rfl | hf
          · exact ⟨y :: f, List.mem_cons_self .., List.mem_cons_of_mem _ hxf⟩
          · exact ⟨f, List.mem_cons_of_mem _ hf, hxf⟩

/-- The fields hold all but the separators, in order. -/
theorem flatten_fields (sep : α → Bool) (xs : List α) :
    (fields sep xs).flatten = xs.filter fun x => !sep x := by
  induction xs with
  | nil => rfl
  | cons x xs ih =>
    rw [fields, List.filter_cons, ← ih]
    cases sep x with
    | true => rfl
    | false =>
      cases hfs : fields sep xs with
      | nil => exact absurd hfs (fields_ne_nil _ _)
      | cons f fs => rfl

/-- The first field begins the text. -/
theorem fields_initial (sep : α → Bool) (xs : List α) {fs : List (List α)}
    (hfs : fields sep xs = f :: fs) : f <+: xs := by
  induction xs generalizing f fs with
  | nil =>
    rw [fields] at hfs
    exact (List.cons.inj hfs).1 ▸ List.prefix_rfl
  | cons y ys ih =>
    rw [fields] at hfs
    split at hfs
    · exact (List.cons.inj hfs).1 ▸ List.nil_prefix
    · cases hys : fields sep ys with
      | nil => exact absurd hys (fields_ne_nil _ _)
      | cons g gs =>
        rw [hys] at hfs
        rw [← (List.cons.inj hfs).1]
        exact List.cons_prefix_cons.2 ⟨rfl, ih hys⟩

/-- A field is a stretch of the text. -/
theorem isInfix_of_mem_fields (hf : f ∈ fields sep xs) : f <:+: xs := by
  induction xs generalizing f with
  | nil => exact (List.mem_singleton.1 hf) ▸ List.infix_rfl
  | cons y ys ih =>
    have hcons : ∀ {g : List α}, g ∈ fields sep ys → g <:+: y :: ys :=
      fun hg => List.infix_cons (ih hg)
    rw [fields] at hf
    split at hf
    · rcases List.mem_cons.1 hf with rfl | hf
      · exact List.nil_infix
      · exact hcons hf
    · cases hys : fields sep ys with
      | nil => exact absurd hys (fields_ne_nil _ _)
      | cons g gs =>
        simp only [hys] at hf hcons
        rcases List.mem_cons.1 hf with rfl | hf
        · -- the first field begins the text
          have hjoined := fields_initial sep ys hys
          exact (List.cons_prefix_cons.2 ⟨rfl, hjoined⟩).isInfix
        · exact hcons (List.mem_cons_of_mem _ hf)

/-- And a field holds nothing else. -/
theorem mem_of_mem_fields {x : α} (hf : f ∈ fields sep xs) (hx : x ∈ f) : x ∈ xs :=
  (isInfix_of_mem_fields hf).subset hx

/-- Separators at the end add empty fields. -/
theorem exists_fields_append (xs : List α) {ys : List α} (hys : ∀ y ∈ ys, sep y = true) :
    ∃ fs, (∀ f ∈ fs, f = []) ∧ fields sep (xs ++ ys) = fields sep xs ++ fs := by
  cases ys with
  | nil => exact ⟨[], fun f hf => absurd hf List.not_mem_nil, by simp⟩
  | cons y ys =>
    refine ⟨fields sep ys, fun f hf => ?_, fields_append (hys y (List.mem_cons_self ..)) xs ys⟩
    refine List.eq_nil_iff_forall_not_mem.2 fun x hx => ?_
    have hsep := hys x (List.mem_cons_of_mem _ (mem_of_mem_fields hf hx))
    rw [eq_false_of_mem_fields hf x hx] at hsep
    cases hsep

theorem fields_of_not_mem [DecidableEq α] (h : s ∉ xs) : fields (· == s) xs = [xs] := by
  refine fields_of_forall fun x hx => ?_
  have hne : x ≠ s := fun heq => h (heq ▸ hx)
  simpa using hne

/-- **Texts joined at a separator** have their fields one after the
other. -/
theorem fields_intercalate_eq_flatMap [DecidableEq α] {ps : List (List α)} (hne : ps ≠ []) :
    fields (· == s) (List.intercalate [s] ps) = ps.flatMap (fields (· == s)) := by
  induction ps with
  | nil => exact absurd rfl hne
  | cons p ps ih =>
    cases ps with
    | nil => rw [List.intercalate_singleton, List.flatMap_singleton]
    | cons q qs =>
      rw [List.intercalate_cons_cons, List.append_assoc, List.singleton_append,
        fields_append (by simp), ih (List.cons_ne_nil q qs)]
      exact List.flatMap_cons.symm

/-- **Fields joined at a separator are cut there again.** -/
theorem fields_intercalate [DecidableEq α] {ps : List (List α)} (hne : ps ≠ [])
    (hps : ∀ p ∈ ps, s ∉ p) : fields (· == s) (List.intercalate [s] ps) = ps := by
  have hsingle : ps.flatMap (fields (· == s)) = ps.flatMap fun p => [p] :=
    List.flatMap_congr fun p hp => fields_of_not_mem (hps p hp)
  rw [fields_intercalate_eq_flatMap hne, hsingle, List.flatMap_singleton']

/-- Each text that is joined counts with one separator, but for the
last. -/
theorem length_intercalate (s : α) {ps : List (List α)} (hne : ps ≠ []) :
    (List.intercalate [s] ps).length + 1 = (ps.map fun p => p.length + 1).sum := by
  induction ps with
  | nil => exact absurd rfl hne
  | cons p ps ih =>
    cases ps with
    | nil => simp
    | cons q qs =>
      have hrest := ih (List.cons_ne_nil q qs)
      rw [List.intercalate_cons_cons, List.map_cons, List.sum_cons, ← hrest, List.length_append,
        List.length_append, List.length_singleton]
      omega

/-- One more text stands behind one more separator. -/
theorem intercalate_concat {sep x : List α} {ps : List (List α)} (hps : ps ≠ []) :
    List.intercalate sep (ps ++ [x]) = List.intercalate sep ps ++ sep ++ x := by
  induction ps with
  | nil => exact absurd rfl hps
  | cons p ps ih =>
    cases ps with
    | nil => simp
    | cons q ps =>
      have hrest := ih (List.cons_ne_nil q ps)
      rw [List.cons_append] at hrest
      rw [List.cons_append, List.cons_append, List.intercalate_cons_cons, hrest,
        List.intercalate_cons_cons]
      simp only [List.append_assoc]

/-! ## Empty fields -/

theorem head?_fields_eq_nil_iff [DecidableEq α] :
    (fields (· == s) xs).head? = some [] ↔ xs = [] ∨ xs.head? = some s := by
  cases xs with
  | nil => simp [fields]
  | cons x xs =>
    rw [fields]
    by_cases hx : x = s
    · simp [hx]
    · cases hfs : fields (· == s) xs with
      | nil => exact absurd hfs (fields_ne_nil _ _)
      | cons f fs => simp [hx]

/-- The last element is the first one, or stands behind it. -/
theorem getLast?_cons_eq_some_iff {x : α} :
    (x :: xs).getLast? = some s ↔ xs = [] ∧ x = s ∨ xs.getLast? = some s := by
  cases xs with
  | nil => simp
  | cons y ys => simp [List.getLast?_cons_cons]

/-- Two in a row stand in front, or behind the first element. -/
theorem pair_infix_cons_iff {x : α} :
    [s, s] <:+: x :: xs ↔ x = s ∧ xs.head? = some s ∨ [s, s] <:+: xs := by
  rw [List.infix_cons_iff, List.cons_prefix_cons]
  refine or_congr_left (and_congr eq_comm ?_)
  cases xs with
  | nil => simp
  | cons y ys => simp [List.cons_prefix_cons, eq_comm]

/-- A field behind the first one is empty where two separators meet, or
where a separator comes last. -/
theorem nil_mem_tail_fields_iff [DecidableEq α] :
    [] ∈ (fields (· == s) xs).tail ↔ xs.getLast? = some s ∨ [s, s] <:+: xs := by
  induction xs with
  | nil => simp [fields]
  | cons x xs ih =>
    obtain ⟨f, fs, hfs⟩ := List.exists_cons_of_ne_nil (fields_ne_nil (· == s) xs)
    have hhead : (fields (· == s) xs).head? = some [] ↔ xs = [] ∨ xs.head? = some s :=
      head?_fields_eq_nil_iff
    rw [hfs, List.head?_cons, Option.some.injEq] at hhead
    rw [hfs, List.tail_cons] at ih
    rw [fields, getLast?_cons_eq_some_iff, pair_infix_cons_iff, hfs]
    by_cases hx : x = s
    · rw [if_pos (by simpa using hx), List.tail_cons, List.mem_cons, ih, eq_comm, hhead]
      tauto
    · rw [if_neg (by simpa using hx), List.tail_cons, ih]
      tauto

/-- **An empty field** has a separator or an end of the text on either
side. -/
theorem nil_mem_fields_iff [DecidableEq α] : [] ∈ fields (· == s) xs ↔
    xs = [] ∨ xs.head? = some s ∨ xs.getLast? = some s ∨ [s, s] <:+: xs := by
  obtain ⟨f, fs, hfs⟩ := List.exists_cons_of_ne_nil (fields_ne_nil (· == s) xs)
  have hhead : (fields (· == s) xs).head? = some [] ↔ xs = [] ∨ xs.head? = some s :=
    head?_fields_eq_nil_iff
  have htail : [] ∈ (fields (· == s) xs).tail ↔ xs.getLast? = some s ∨ [s, s] <:+: xs :=
    nil_mem_tail_fields_iff
  rw [hfs, List.head?_cons, Option.some.injEq] at hhead
  rw [hfs, List.tail_cons] at htail
  rw [hfs, List.mem_cons, htail, eq_comm, hhead, or_assoc]

/-! ## Cutting at the first separator -/

/-- **A text is cut at its first separator.** -/
theorem cut_eq_some : cut sep xs = some (l, r) ↔
    ∃ s, sep s = true ∧ xs = l ++ s :: r ∧ ∀ x ∈ l, sep x = false := by
  induction xs generalizing l with
  | nil => simp [cut]
  | cons x xs ih =>
    rw [cut]
    cases hx : sep x with
    | true =>
      rw [if_pos rfl, Option.some.injEq, Prod.mk.injEq]
      constructor
      · rintro ⟨rfl, rfl⟩
        exact ⟨x, hx, rfl, fun y hy => absurd hy List.not_mem_nil⟩
      · rintro ⟨s, hs, hxs, hl⟩
        cases l with
        | nil => exact ⟨rfl, (List.cons.inj hxs).2⟩
        | cons y l =>
          obtain rfl := (List.cons.inj hxs).1
          exact absurd (hl x (List.mem_cons_self ..)) (by rw [hx]; exact Bool.noConfusion)
    | false =>
      rw [if_neg Bool.false_ne_true, Option.map_eq_some_iff]
      constructor
      · rintro ⟨⟨l', r'⟩, hcut, hlr⟩
        obtain ⟨rfl, rfl⟩ := Prod.mk.inj hlr
        obtain ⟨s, hs, rfl, hl⟩ := ih.1 hcut
        exact ⟨s, hs, rfl, List.forall_mem_cons.2 ⟨hx, hl⟩⟩
      · rintro ⟨s, hs, hxs, hl⟩
        cases l with
        | nil =>
          obtain rfl := (List.cons.inj hxs).1
          rw [hx] at hs
          cases hs
        | cons y l =>
          obtain ⟨rfl, rfl⟩ := List.cons.inj hxs
          exact ⟨(l, r), ih.2 ⟨s, hs, rfl, (List.forall_mem_cons.1 hl).2⟩, rfl⟩

theorem cut_eq_none : cut sep xs = none ↔ ∀ x ∈ xs, sep x = false := by
  induction xs with
  | nil => simp [cut]
  | cons x xs ih =>
    rw [cut, List.forall_mem_cons]
    cases sep x <;> simp [ih]

/-- **Or at its last one.** -/
theorem eq_append_of_cutLast (h : cutLast sep xs = some (l, r)) :
    ∃ s, sep s = true ∧ xs = l ++ s :: r := by
  obtain ⟨⟨r', l'⟩, hcut, hlr⟩ := Option.map_eq_some_iff.1 h
  obtain ⟨rfl, rfl⟩ := Prod.mk.inj hlr
  obtain ⟨s, hs, hxs, -⟩ := cut_eq_some.1 hcut
  refine ⟨s, hs, ?_⟩
  have hreverse := congrArg List.reverse hxs
  rwa [List.reverse_reverse, List.reverse_append, List.reverse_cons, List.append_assoc,
    List.singleton_append] at hreverse

end Text

end CompileCommands
