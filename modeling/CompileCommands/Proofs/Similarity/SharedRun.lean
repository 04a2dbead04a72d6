import CompileCommands.Similarity.SharedRun
import Mathlib.Data.List.Infix
import Mathlib.Order.Bounds.Defs
import Mathlib.Order.MinMax
/-!
# The longest shared run

Read backwards from an element, a run that ends there is a list that the
two begin with. The row of an element holds how far the two agree in this
way, at every position of the second list (`nextRow_rowOf`), and one row
leads to the next. Its entries are therefore the lengths of the runs that
end at the element (`le_foldl_max_rowOf`), and the greatest of all rows is
the length of the longest run (`le_longest_iff`). It makes no difference
that two rows, filled in turn and never cleared, stand for all of them
(`longestInRows_eq_longest`).
-/

namespace CompileCommands

namespace SharedRun

variable {α : Type} [DecidableEq α] {xs ys ps qs zs : List α} {x : α} {n : Nat}

/-! ## Agreement from the start -/

/-- How long two lists agree from the start. -/
def agreement : List α → List α → Nat
  | x :: xs, y :: ys => if x = y then agreement xs ys + 1 else 0
  | _, _ => 0

theorem agreement_nil_right (xs : List α) : agreement xs [] = 0 := by
  cases xs <;> rfl

/-- **As long as both begin with the same list**, and no longer. -/
theorem le_agreement_iff :
    n ≤ agreement xs ys ↔ ∃ zs, zs.length = n ∧ zs <+: xs ∧ zs <+: ys := by
  induction xs generalizing ys n with
  | nil => simp [agreement, eq_comm]
  | cons x xs ih =>
    cases ys with
    | nil => simp [agreement, eq_comm]
    | cons y ys =>
      cases n with
      | zero => exact ⟨fun _ => ⟨[], rfl, List.nil_prefix, List.nil_prefix⟩, fun _ => Nat.zero_le _⟩
      | succ n =>
        rw [agreement]
        split
        · rename_i hxy
          subst hxy
          rw [Nat.add_le_add_iff_right, ih]
          constructor
          · rintro ⟨zs, rfl, hxs, hys⟩
            exact ⟨x :: zs, rfl, (List.prefix_cons_inj x).2 hxs, (List.prefix_cons_inj x).2 hys⟩
          · rintro ⟨zs, hlength, hxs, hys⟩
            obtain ⟨z, zs, rfl⟩ := List.exists_cons_of_length_eq_add_one hlength
            exact ⟨zs, by simpa using hlength, (List.cons_prefix_cons.1 hxs).2,
              (List.cons_prefix_cons.1 hys).2⟩
        · rename_i hxy
          refine ⟨fun hn => absurd hn (Nat.not_succ_le_zero n), ?_⟩
          rintro ⟨zs, hlength, hxs, hys⟩
          obtain ⟨z, zs, rfl⟩ := List.exists_cons_of_length_eq_add_one hlength
          have hzx := (List.cons_prefix_cons.1 hxs).1
          exact absurd (hzx.symm.trans (List.cons_prefix_cons.1 hys).1) hxy

/-! ## Rows -/

/-- How long `ps` and what comes up to each position of `ys` agree, when
both are read backwards; `qs` is what comes before `ys`, backwards. -/
def rowOf (ps : List α) : List α → List α → List Nat
  | _, [] => []
  | qs, y :: ys => agreement ps (y :: qs) :: rowOf ps (y :: qs) ys

/-- Before the first element nothing agrees. -/
theorem rowOf_nil (qs ys : List α) : rowOf [] qs ys = ys.map fun _ => 0 := by
  induction ys generalizing qs with
  | nil => rfl
  | cons y ys ih => rw [rowOf, ih, List.map_cons]; rfl

/-- **A row leads to the next**: the row after one more element is made of
the row before. -/
theorem nextRow_rowOf (x : α) (ps qs ys : List α) :
    nextRow x (agreement ps qs) ys (rowOf ps qs ys) = rowOf (x :: ps) qs ys := by
  induction ys generalizing qs with
  | nil => rfl
  | cons y ys ih => rw [rowOf, rowOf, nextRow, ih, agreement]

/-- An entry of a row is the agreement at one position. -/
theorem mem_rowOf_iff : n ∈ rowOf ps qs ys ↔
    ∃ us y vs, ys = us ++ y :: vs ∧ n = agreement ps (y :: (us.reverse ++ qs)) := by
  induction ys generalizing qs with
  | nil => simp [rowOf]
  | cons y ys ih =>
    rw [rowOf, List.mem_cons, ih]
    constructor
    · rintro (rfl | ⟨us, z, vs, rfl, rfl⟩)
      · exact ⟨[], y, ys, rfl, rfl⟩
      · exact ⟨y :: us, z, vs, rfl, by simp⟩
    · rintro ⟨us, z, vs, hys, rfl⟩
      cases us with
      | nil =>
        obtain ⟨rfl, rfl⟩ := List.cons.inj hys
        exact .inl rfl
      | cons u us =>
        obtain ⟨rfl, rfl⟩ := List.cons.inj hys
        exact .inr ⟨us, z, vs, rfl, by simp⟩

theorem le_foldl_max_iff {row : List Nat} {m : Nat} :
    n ≤ row.foldl max m ↔ n ≤ m ∨ ∃ k ∈ row, n ≤ k := by
  induction row generalizing m with
  | nil => simp
  | cons k row ih =>
    rw [List.foldl_cons, ih, le_max_iff, List.exists_mem_cons_iff, or_assoc]

/-- A run that stands in a list, read backwards, starts at one of its
positions. -/
theorem exists_reverse_prefix_of_infix {α : Type} {ys zs : List α} {z : α}
    (hzs : (z :: zs).reverse <:+: ys) :
    ∃ us vs, ys = us ++ z :: vs ∧ zs <+: us.reverse := by
  obtain ⟨before, after, rfl⟩ := hzs
  refine ⟨before ++ zs.reverse, after, by simp, ?_⟩
  rw [List.reverse_append, List.reverse_reverse]
  exact List.prefix_append ..

/-- And what starts at a position, read backwards, stands in the list. -/
theorem reverse_infix_of_prefix {α : Type} {us vs zs : List α} {x : α}
    (hzs : zs <+: x :: us.reverse) : zs.reverse <:+: us ++ x :: vs := by
  have hsuffix := List.reverse_suffix.2 hzs
  rw [List.reverse_cons, List.reverse_reverse] at hsuffix
  have hfront : us ++ [x] <+: us ++ x :: vs := ⟨vs, by simp⟩
  exact hsuffix.isInfix.trans hfront.isInfix

/-- **The greatest entry of a row** is the length of the longest list that
`ps` begins with and `ys` holds backwards. -/
theorem le_foldl_max_rowOf :
    n ≤ (rowOf ps [] ys).foldl max 0 ↔ ∃ zs, zs.length = n ∧ zs <+: ps ∧ zs.reverse <:+: ys := by
  rw [le_foldl_max_iff]
  constructor
  · rintro (hn | ⟨k, hk, hn⟩)
    · exact ⟨[], (Nat.le_zero.1 hn).symm, List.nil_prefix, List.nil_infix⟩
    · obtain ⟨us, y, vs, rfl, rfl⟩ := mem_rowOf_iff.1 hk
      obtain ⟨zs, hlength, hps, hys⟩ := le_agreement_iff.1 hn
      rw [List.append_nil] at hys
      exact ⟨zs, hlength, hps, reverse_infix_of_prefix hys⟩
  · rintro ⟨zs, rfl, hps, hys⟩
    cases zs with
    | nil => exact .inl (Nat.le_refl 0)
    | cons z zs =>
      obtain ⟨us, vs, rfl, hus⟩ := exists_reverse_prefix_of_infix hys
      refine .inr ⟨_, mem_rowOf_iff.2 ⟨us, z, vs, rfl, rfl⟩, ?_⟩
      rw [List.append_nil]
      exact le_agreement_iff.2 ⟨z :: zs, rfl, hps, (List.prefix_cons_inj z).2 hus⟩

/-! ## All rows -/

/-- **The greatest entry of the rows that follow** belongs to one of the
elements that are still to come. -/
theorem le_longestFrom_iff : n ≤ longestFrom ys (rowOf ps [] ys) xs ↔
    n = 0 ∨ ∃ us x vs, xs = us ++ x :: vs ∧
      n ≤ (rowOf (x :: (us.reverse ++ ps)) [] ys).foldl max 0 := by
  induction xs generalizing ps with
  | nil => simp [longestFrom]
  | cons x xs ih =>
    have hrow : nextRow x 0 ys (rowOf ps [] ys) = rowOf (x :: ps) [] ys := by
      rw [← nextRow_rowOf, agreement_nil_right]
    rw [longestFrom, hrow, le_max_iff, ih]
    constructor
    · rintro (hn | rfl | ⟨us, z, vs, rfl, hn⟩)
      · exact .inr ⟨[], x, xs, rfl, hn⟩
      · exact .inl rfl
      · exact .inr ⟨x :: us, z, vs, rfl, by simpa using hn⟩
    · rintro (rfl | ⟨us, z, vs, hxs, hn⟩)
      · exact .inl (Nat.zero_le _)
      · cases us with
        | nil =>
          obtain ⟨rfl, rfl⟩ := List.cons.inj hxs
          exact .inl hn
        | cons u us =>
          obtain ⟨rfl, rfl⟩ := List.cons.inj hxs
          exact .inr (.inr ⟨us, z, vs, rfl, by simpa using hn⟩)

/-- **A run of every length up to the longest**, and of no other, stands
in both lists. -/
theorem le_longest_iff :
    n ≤ longest xs ys ↔ ∃ zs, zs.length = n ∧ zs <:+: xs ∧ zs <:+: ys := by
  rw [longest, ← rowOf_nil [] ys, le_longestFrom_iff]
  simp only [le_foldl_max_rowOf, List.append_nil]
  constructor
  · rintro (rfl | ⟨us, x, vs, rfl, zs, rfl, hxs, hys⟩)
    · exact ⟨[], rfl, List.nil_infix, List.nil_infix⟩
    · exact ⟨zs.reverse, List.length_reverse, reverse_infix_of_prefix hxs, hys⟩
  · rintro ⟨zs, rfl, hxs, hys⟩
    rcases List.eq_nil_or_concat' zs with rfl | ⟨front, z, rfl⟩
    · exact .inl rfl
    · -- the run ends at `z`
      have hback : front ++ [z] = (z :: front.reverse).reverse := by simp
      rw [hback] at hxs hys
      obtain ⟨us, vs, rfl, hus⟩ := exists_reverse_prefix_of_infix hxs
      exact .inr ⟨us, z, vs, rfl, z :: front.reverse, by simp, (List.prefix_cons_inj z).2 hus, hys⟩

/-! ## Two rows in turn -/

theorem length_nextRow {row : List Nat} {d : Nat} (hrow : row.length = ys.length) :
    (nextRow x d ys row).length = ys.length := by
  induction ys generalizing row d with
  | nil => rfl
  | cons y ys ih =>
    obtain ⟨n, row, rfl⟩ := List.exists_cons_of_length_eq_add_one hrow
    rw [nextRow, List.length_cons, ih (Nat.succ.inj hrow), List.length_cons]

namespace Rows

variable {t : Rows} {row old : List Nat} {diagonal m j : Nat}

/-- **Filling the current row from a position on** keeps what stands up to
there and puts the next row behind it, whatever stood there; `row` is what
the row before holds after its entry `diagonal`. -/
theorem fill_eq (hbefore : t.before.drop j = diagonal :: row) (hrow : row.length = ys.length)
    (hcurrent : t.current.length = j + 1 + ys.length) :
    t.fill x j ys = ⟨t.before, t.current.take (j + 1) ++ nextRow x diagonal ys row,
      (nextRow x diagonal ys row).foldl max t.greatest⟩ := by
  induction ys generalizing t j diagonal row with
  | nil =>
    obtain rfl := List.eq_nil_of_length_eq_zero hrow
    have hall : t.current.length ≤ j + 1 := Nat.le_of_eq hcurrent
    change t = ⟨t.before, t.current.take (j + 1) ++ [], t.greatest⟩
    rw [List.append_nil, List.take_of_length_le hall]
  | cons y ys ih =>
    obtain ⟨n, row, rfl⟩ := List.exists_cons_of_length_eq_add_one hrow
    have hdiagonal : t.before.getD j 0 = diagonal := by
      rw [List.getD_eq_getElem?_getD, ← List.head?_drop, hbefore]
      rfl
    have hnext : t.before.drop (j + 1) = n :: row := by
      rw [← List.tail_drop, hbefore]
      rfl
    rw [List.length_cons] at hcurrent
    rw [fill, hdiagonal, nextRow, List.foldl_cons]
    generalize (if x = y then diagonal + 1 else 0) = entry
    have hset : (t.current.set (j + 1) entry).take (j + 1 + 1) =
        t.current.take (j + 1) ++ [entry] := by
      rw [List.take_add_one, List.getElem?_set_self (by omega),
        List.take_set_of_le (Nat.le_refl _)]
      rfl
    refine (ih (t := ⟨t.before, t.current.set (j + 1) entry, max t.greatest entry⟩) hnext
      (Nat.succ.inj hrow) ?_).trans ?_
    · rw [List.length_set, hcurrent]
      omega
    · rw [hset, List.append_assoc]
      rfl

/-- A whole row is filled. -/
theorem fill_zero (hrow : row.length = ys.length) (hold : old.length = ys.length) :
    fill x 0 ys ⟨0 :: row, 0 :: old, m⟩ =
      ⟨0 :: row, 0 :: nextRow x 0 ys row, (nextRow x 0 ys row).foldl max m⟩ := by
  refine fill_eq rfl hrow ?_
  rw [List.length_cons, hold, Nat.zero_add, Nat.add_comm]

theorem foldl_max (row : List Nat) (m : Nat) : row.foldl max m = max m (row.foldl max 0) := by
  have hassoc : row.foldl max (max m 0) = max m (row.foldl max 0) := List.foldl_assoc
  rwa [Nat.max_zero] at hassoc

/-- **The loop over the first list** leads from row to row; what is still
in the row that is filled next does not count. -/
theorem greatest_run (hrow : row.length = ys.length) (hold : old.length = ys.length) :
    (run ys xs ⟨0 :: row, 0 :: old, m⟩).greatest = max m (longestFrom ys row xs) := by
  induction xs generalizing row old m with
  | nil => exact (Nat.max_zero m).symm
  | cons x xs ih =>
    rw [run, fill_zero hrow hold, swap, ih (length_nextRow hrow) hrow, longestFrom, foldl_max,
      max_assoc]

end Rows

/-- **Two rows are enough**: the loop that fills them in turn comes to the
length of the longest run. -/
theorem longestInRows_eq_longest (xs ys : List α) : longestInRows xs ys = longest xs ys := by
  have hzeros : (ys.map fun _ => 0) = List.replicate ys.length 0 := List.map_const ..
  rw [longestInRows, Rows.start, List.replicate_succ,
    Rows.greatest_run List.length_replicate List.length_replicate, longest, hzeros, Nat.zero_max]

/-! ## The length of the longest run -/

theorem longest_comm (xs ys : List α) : longest xs ys = longest ys xs := by
  refine Nat.le_antisymm ?_ ?_
  · obtain ⟨zs, hlength, hxs, hys⟩ := le_longest_iff.1 (Nat.le_refl (longest xs ys))
    exact le_longest_iff.2 ⟨zs, hlength, hys, hxs⟩
  · obtain ⟨zs, hlength, hys, hxs⟩ := le_longest_iff.1 (Nat.le_refl (longest ys xs))
    exact le_longest_iff.2 ⟨zs, hlength, hxs, hys⟩

theorem longest_le_left (xs ys : List α) : longest xs ys ≤ xs.length := by
  obtain ⟨zs, hlength, hxs, -⟩ := le_longest_iff.1 (Nat.le_refl (longest xs ys))
  rw [← hlength]
  exact hxs.length_le

theorem longest_le_right (xs ys : List α) : longest xs ys ≤ ys.length :=
  longest_comm xs ys ▸ longest_le_left ys xs

/-- **All of a list is shared** only with a list that holds it. -/
theorem infix_of_longest_eq (h : longest xs ys = xs.length) : xs <:+: ys := by
  obtain ⟨zs, hlength, hxs, hys⟩ := le_longest_iff.1 (Nat.le_of_eq h.symm)
  rwa [hxs.eq_of_length hlength] at hys

theorem longest_self (xs : List α) : longest xs xs = xs.length :=
  Nat.le_antisymm (longest_le_left xs xs)
    (le_longest_iff.2 ⟨xs, rfl, List.infix_rfl, List.infix_rfl⟩)

/-- **The longest run is what is computed**: the greatest length of a list
that stands contiguously in both, whatever the lists. -/
theorem longest_isGreatest (xs ys : List α) :
    IsGreatest {n | ∃ zs : List α, zs.length = n ∧ zs <:+: xs ∧ zs <:+: ys} (longest xs ys) := by
  constructor
  · exact le_longest_iff.1 (Nat.le_refl (longest xs ys))
  · rintro n ⟨zs, hlength, hxs, hys⟩
    exact le_longest_iff.2 ⟨zs, hlength, hxs, hys⟩

-- `a` stands in both, but what follows it differs
example : longest ["a", "b", "c"] ["a", "x", "b", "c"] = 2 := by decide

end SharedRun

end CompileCommands
