import CompileCommands.Proofs.Path.Canonical
import Mathlib.Data.List.Forall2
import Mathlib.Data.List.Sort
/-!
# The order of paths

The order of paths compares components, so paths that neither comes
before the other are spelled with the same ones (`same_of_le`), and are
equal if both are spelled in the canonical way (`eq_of_same`). Sorting
such paths leaves each of them once (`mem_sortPaths`), in strict order
(`pairwise_sortPaths`).
-/

namespace CompileCommands

variable {p q r : Path} {ps qs : List Path}

theorem Component.sortKey_injective : Function.Injective Component.sortKey := by
  have hname : ∀ n : String, ∀ m : String, sortKey (.name n) = sortKey (.name m) → n = m := by
    intro n m h
    have hchars : n.toList.map Char.toNat = m.toList.map Char.toNat := (List.cons.inj h).2
    have hinj : Function.Injective Char.toNat := fun c d hcd => Char.toNat_inj.1 hcd
    exact String.toList_inj.1 (List.map_injective_iff.2 hinj hchars)
  intro c d h
  cases c <;> cases d <;> first | rfl | cases h | exact congrArg _ (hname _ _ h)

namespace Path

/-! ## Spellings -/

theorem same_iff : p.same q = true ↔ p.components = q.components := beq_iff_eq

/-- **A path that is spelled in the canonical way** has no other canonical
spelling. -/
theorem eq_of_same (hp : p.normalize = p) (hq : q.normalize = q) (h : p.same q = true) : p = q := by
  have hplace : p.place = q.place := by rw [place, place, same_iff.1 h]
  rw [← hp, ← hq, normalize, normalize, hplace]

/-! ## Components in order -/

theorem sortKey_inj : p.sortKey = q.sortKey ↔ p.same q = true := by
  rw [same_iff]
  exact (List.map_injective_iff.2 Component.sortKey_injective).eq_iff

theorem le_trans (hpq : p.le q = true) (hqr : q.le r = true) : p.le r = true :=
  Std.TransCmp.isLE_trans hpq hqr

theorem le_total (p q : Path) : (p.le q || q.le p) = true := by
  have hswap : List.compareLex (List.compareLex compare) p.sortKey q.sortKey =
      (List.compareLex (List.compareLex compare) q.sortKey p.sortKey).swap :=
    Std.OrientedCmp.eq_swap
  rw [le, le, hswap]
  cases List.compareLex (List.compareLex compare) q.sortKey p.sortKey <;> rfl

/-- **Paths in both orders are one path.** -/
theorem same_of_le (hpq : p.le q = true) (hqp : q.le p = true) : p.same q = true :=
  sortKey_inj.1 (Std.LawfulEqCmp.eq_of_compare (Std.OrientedCmp.isLE_antisymm hpq hqp))

/-- Whether a path comes before another one, whose components differ. -/
def Precedes (p q : Path) : Prop := p.le q = true ∧ q.le p = false

theorem Precedes.of_le (hpq : p.le q = true) (hqr : q.Precedes r) : p.Precedes r := by
  refine ⟨le_trans hpq hqr.1, Bool.eq_false_iff.2 fun hrp => ?_⟩
  exact absurd (le_trans hrp hpq) (Bool.eq_false_iff.1 hqr.2)

instance : Std.Irrefl Precedes := ⟨fun _ h => absurd h.1 (Bool.eq_false_iff.1 h.2)⟩

instance : Std.Antisymm Precedes := ⟨fun _ _ h h' => absurd h'.1 (Bool.eq_false_iff.1 h.2)⟩

/-! ## The order of what paths mean -/

end Path

namespace Component

variable {pre as bs : List Component}

/-- Whether a path with the one list of components comes before one with
the other. -/
def Before (as bs : List Component) : Prop :=
  (List.compareLex (List.compareLex compare) (as.map sortKey) (bs.map sortKey)).isLE = true ∧
    (List.compareLex (List.compareLex compare) (bs.map sortKey) (as.map sortKey)).isLE = false

instance : Std.Irrefl Before := ⟨fun _ h => absurd h.1 (Bool.eq_false_iff.1 h.2)⟩

instance : Std.Antisymm Before := ⟨fun _ _ h h' => absurd h'.1 (Bool.eq_false_iff.1 h.2)⟩

/-- **What two paths begin with** does not matter, if it is the same. -/
theorem before_append : Before (pre ++ as) (pre ++ bs) ↔ Before as bs := by
  induction pre with
  | nil => exact Iff.rfl
  | cons c pre ih =>
    have hself : List.compareLex compare (sortKey c) (sortKey c) = .eq := Std.ReflCmp.compare_self
    rw [← ih]
    simp only [Before, List.cons_append, List.map_cons, List.compareLex_cons_cons, hself,
      Ordering.eq_then]

end Component

namespace Path

theorem precedes_iff : p.Precedes q ↔ Component.Before p.components q.components := Iff.rfl

/-- **Lists in strict order with the same paths** have them in the same
places, however they are spelled. -/
theorem forall₂_same_of_pairwise (hps : ps.Pairwise Precedes) (hqs : qs.Pairwise Precedes)
    (hmem : ∀ cs, cs ∈ ps.map components ↔ cs ∈ qs.map components) :
    ps.Forall₂ (fun p q => p.same q = true) qs := by
  have hps' : (ps.map components).Pairwise Component.Before := List.pairwise_map.2 hps
  have hqs' : (qs.map components).Pairwise Component.Before := List.pairwise_map.2 hqs
  have hmap : List.Forall₂ (· = ·) (ps.map components) (qs.map components) := by
    rw [List.forall₂_eq_eq_eq, hps'.eq_of_mem_iff hqs' hmem]
  rw [List.forall₂_map_left_iff, List.forall₂_map_right_iff] at hmap
  exact hmap.imp fun p q hpq => same_iff.2 hpq

/-! ## Sorting -/

/-- A list without the elements that the next one kept repeats. -/
def dropRepeats (ps : List Path) : List Path :=
  ps.foldr (fun p kept => if kept.head? = some p then kept else p :: kept) []

theorem dropRepeats_cons (p : Path) (ps : List Path) : dropRepeats (p :: ps) =
    if (dropRepeats ps).head? = some p then dropRepeats ps else p :: dropRepeats ps := rfl

theorem mem_dropRepeats : p ∈ dropRepeats ps ↔ p ∈ ps := by
  induction ps with
  | nil => exact Iff.rfl
  | cons q ps ih =>
    rw [dropRepeats_cons, List.mem_cons, ← ih]
    split
    · rename_i hhead
      exact ⟨.inr, fun h => h.elim (fun heq => heq ▸ List.mem_of_mem_head? hhead) id⟩
    · exact List.mem_cons

/-- Whether paths are spelled in the canonical way. -/
def AreNormal (ps : List Path) : Prop := ∀ p ∈ ps, p.normalize = p

/-- **Sorted paths, each kept once**, are in strict order, and none is
lost: of those that are spelled in several ways the first is kept. -/
theorem pairwise_foldr_of_sorted {f : Path → List Path → List Path} (hnil : ∀ p, f p [] = [p])
    (hcons : ∀ p q kept, f p (q :: kept) = if p.same q then p :: kept else p :: q :: kept)
    (hsorted : ps.Pairwise fun p q => p.le q = true) :
    (ps.foldr f []).Pairwise Precedes ∧ ps.foldr f [] ⊆ ps ∧
      ∀ p ∈ ps, ∃ q ∈ ps.foldr f [], p.same q = true := by
  induction ps with
  | nil => exact ⟨.nil, List.Subset.refl _, fun p hp => absurd hp List.not_mem_nil⟩
  | cons p ps ih =>
    obtain ⟨hfirst, hsorted⟩ := List.pairwise_cons.1 hsorted
    obtain ⟨hkept, hsubset, hsame⟩ := ih hsorted
    rw [List.foldr_cons]
    cases hcases : ps.foldr f [] with
    | nil =>
      rw [hcases] at hsame
      have hnone : ps = [] := List.eq_nil_iff_forall_not_mem.2 fun q hq => by
        obtain ⟨r, hr, -⟩ := hsame q hq
        exact List.not_mem_nil hr
      rw [hnil, hnone]
      exact ⟨List.pairwise_singleton .., List.Subset.refl _,
        fun q hq => ⟨q, hq, same_iff.2 rfl⟩⟩
    | cons q kept =>
      rw [hcases] at hkept hsubset hsame
      obtain ⟨hnext, hkept'⟩ := List.pairwise_cons.1 hkept
      have hpq : p.le q = true := hfirst q (hsubset (List.mem_cons_self ..))
      -- the path comes before the first one kept, and so before all
      have hrest : ∀ r ∈ kept, p.Precedes r := fun r hr => .of_le hpq (hnext r hr)
      rw [hcons]
      split
      · rename_i hpsame
        refine ⟨List.pairwise_cons.2 ⟨hrest, hkept'⟩, List.cons_subset_cons p
          (List.Subset.trans (List.subset_cons_self ..) hsubset), List.forall_mem_cons.2
            ⟨⟨p, List.mem_cons_self .., same_iff.2 rfl⟩, fun r hr => ?_⟩⟩
        obtain ⟨t, ht, hrt⟩ := hsame r hr
        rcases List.mem_cons.1 ht with rfl | ht
        · have hrp : r.same p = true := same_iff.2 ((same_iff.1 hrt).trans (same_iff.1 hpsame).symm)
          exact ⟨p, List.mem_cons_self .., hrp⟩
        · exact ⟨t, List.mem_cons_of_mem _ ht, hrt⟩
      · rename_i hother
        have hfirst' : p.Precedes q :=
          ⟨hpq, Bool.eq_false_iff.2 fun hqp => hother (same_of_le hpq hqp)⟩
        refine ⟨List.pairwise_cons.2 ⟨List.forall_mem_cons.2 ⟨hfirst', hrest⟩, hkept⟩,
          List.cons_subset_cons p hsubset, List.forall_mem_cons.2
            ⟨⟨p, List.mem_cons_self .., same_iff.2 rfl⟩, fun r hr => ?_⟩⟩
        obtain ⟨t, ht, hrt⟩ := hsame r hr
        exact ⟨t, List.mem_cons_of_mem _ ht, hrt⟩

/-- **Of canonical spellings, it does not matter which is kept** where a
path is repeated. -/
theorem foldr_eq_dropRepeats {f : Path → List Path → List Path} (hnil : ∀ p, f p [] = [p])
    (hsame : ∀ p kept, f p (p :: kept) = p :: kept)
    (hother : ∀ p q kept, p.same q = false → f p (q :: kept) = p :: q :: kept)
    (hps : AreNormal ps) : ps.foldr f [] = dropRepeats ps := by
  induction ps with
  | nil => rfl
  | cons p ps ih =>
    obtain ⟨hp, hps⟩ := List.forall_mem_cons.1 hps
    rw [List.foldr_cons, ih hps, dropRepeats_cons]
    cases hcases : dropRepeats ps with
    | nil => exact hnil p
    | cons q kept =>
      rw [List.head?_cons]
      by_cases heq : q = p
      · rw [if_pos (congrArg some heq), heq, hsame]
      · have hq : q.normalize = q :=
          hps q (mem_dropRepeats.1 (hcases ▸ List.mem_cons_self ..))
        have hne : p.same q = false :=
          Bool.eq_false_iff.2 fun h => heq (eq_of_same hp hq h).symm
        rw [if_neg fun h => heq (Option.some.inj h), hother p q kept hne]

end Path

theorem sortPaths_eq_dropRepeats (hps : Path.AreNormal ps) :
    sortPaths ps = Path.dropRepeats (ps.mergeSort Path.le) := by
  refine Path.foldr_eq_dropRepeats (fun _ => rfl) (fun p kept => ?_) (fun p q kept hne => ?_) ?_
  · exact if_pos (Path.same_iff.2 rfl)
  · exact if_neg (Bool.eq_false_iff.1 hne)
  · exact fun p hp => hps p (List.mem_mergeSort.1 hp)

theorem pairwise_mergeSort_le (ps : List Path) :
    (ps.mergeSort Path.le).Pairwise fun p q => p.le q = true :=
  @List.pairwise_mergeSort Path Path.le (fun _ _ _ hpq hqr => Path.le_trans hpq hqr)
    Path.le_total ps

theorem sortPaths_spec (ps : List Path) : (sortPaths ps).Pairwise Path.Precedes ∧
    sortPaths ps ⊆ ps ∧ ∀ p ∈ ps, ∃ q ∈ sortPaths ps, p.same q = true := by
  have hsorted : (sortPaths ps).Pairwise Path.Precedes ∧ sortPaths ps ⊆ ps.mergeSort Path.le ∧
      ∀ p ∈ ps.mergeSort Path.le, ∃ q ∈ sortPaths ps, p.same q = true :=
    Path.pairwise_foldr_of_sorted (fun _ => rfl) (fun _ _ _ => rfl) (pairwise_mergeSort_le ps)
  obtain ⟨hpairwise, hsubset, hsame⟩ := hsorted
  exact ⟨hpairwise, fun p hp => List.mem_mergeSort.1 (hsubset hp),
    fun p hp => hsame p (List.mem_mergeSort.2 hp)⟩

/-- **Sorting paths** puts them in strict order. -/
theorem pairwise_sortPaths (ps : List Path) : (sortPaths ps).Pairwise Path.Precedes :=
  (sortPaths_spec ps).1

/-- **Every path is there under one of its spellings.** -/
theorem mem_map_components_sortPaths {cs : List Component} :
    cs ∈ (sortPaths ps).map Path.components ↔ cs ∈ ps.map Path.components := by
  obtain ⟨-, hsubset, hsame⟩ := sortPaths_spec ps
  rw [List.mem_map, List.mem_map]
  constructor
  · rintro ⟨p, hp, rfl⟩
    exact ⟨p, hsubset hp, rfl⟩
  · rintro ⟨p, hp, rfl⟩
    obtain ⟨q, hq, hpq⟩ := hsame p hp
    exact ⟨q, hq, (Path.same_iff.1 hpq).symm⟩

theorem sortPaths_nil : sortPaths [] = [] := by
  rw [sortPaths, List.mergeSort_nil]
  rfl

theorem sortPaths_singleton (p : Path) : sortPaths [p] = [p] := by
  rw [sortPaths, List.mergeSort_singleton]
  rfl

/-- **Spellings of one path** are sorted to one of them. -/
theorem exists_sortPaths_eq_singleton {cs : List Component} :
    (∃ q, sortPaths ps = [q] ∧ q.components = cs) ↔ ps ≠ [] ∧ ∀ p ∈ ps, p.components = cs := by
  have hmem : ∀ {ds : List Component}, ds ∈ (sortPaths ps).map Path.components ↔
      ds ∈ ps.map Path.components := mem_map_components_sortPaths
  constructor
  · rintro ⟨q, hsorted, rfl⟩
    rw [hsorted] at hmem
    refine ⟨?_, fun p hp => ?_⟩
    · rintro rfl
      exact List.not_mem_nil (hmem.1 (List.mem_singleton_self _))
    · exact List.mem_singleton.1 (hmem.2 (List.mem_map_of_mem hp))
  · rintro ⟨hne, hall⟩
    obtain ⟨hpairwise, hsubset, -⟩ := sortPaths_spec ps
    obtain ⟨p, hp⟩ := List.exists_mem_of_ne_nil ps hne
    cases hcases : sortPaths ps with
    | nil =>
      rw [hcases] at hmem
      exact absurd (hmem.2 (List.mem_map_of_mem hp)) List.not_mem_nil
    | cons q rest =>
      rw [hcases] at hpairwise hsubset
      have hq : q.components = cs := hall q (hsubset (List.mem_cons_self ..))
      cases rest with
      | nil => exact ⟨q, rfl, hq⟩
      | cons r rest =>
        -- one of them would come before the other
        have hr : r.components = cs :=
          hall r (hsubset (List.mem_cons_of_mem _ (List.mem_cons_self ..)))
        have hqr := (List.pairwise_cons.1 hpairwise).1 r (List.mem_cons_self ..)
        rw [Path.precedes_iff, hq, hr] at hqr
        exact absurd hqr (irrefl _)

/-- **And it loses none** of them. -/
theorem mem_sortPaths (hps : Path.AreNormal ps) : p ∈ sortPaths ps ↔ p ∈ ps := by
  rw [sortPaths_eq_dropRepeats hps, Path.mem_dropRepeats, List.mem_mergeSort]

/-- Paths in strict order are sorted already. -/
theorem sortPaths_of_pairwise (hps : Path.AreNormal ps) (hsorted : ps.Pairwise Path.Precedes) :
    sortPaths ps = ps :=
  (pairwise_sortPaths ps).eq_of_mem_iff hsorted fun _ => mem_sortPaths hps

end CompileCommands
