import CompileCommands.Proofs.FileTree.Reach
import CompileCommands.Proofs.Headers.Graph
import CompileCommands.Proofs.Path.Relative
/-!
# The closest includer

A search goes up through the includers level by level. As long as it has
met no file with a command, all that includes a visited file has been
visited, but for the includers of the last level (`Search`). A rooted
file among the visited ones then has an includer left to visit
(`Search.exists_next`), so a search for the closest includer of a rooted
file ends at a file with a command (`closest?_of_rooted`).
-/

namespace CompileCommands

namespace IncludeGraph

variable {g : IncludeGraph} {known visited level : List Path} {p q r : Path}

/-! ## One level -/

theorem mem_nextLevel :
    r ∈ g.nextLevel visited level ↔ r ∉ visited ∧ ∃ q ∈ level, r ∈ g.includers q := by
  suffices hfold : ∀ ps next : List Path,
      r ∈ ps.foldl (fun next p => if p ∈ visited ∨ p ∈ next then next else next ++ [p]) next ↔
        r ∈ next ∨ r ∉ visited ∧ r ∈ ps by
    rw [nextLevel, hfold, List.mem_flatMap]
    exact or_iff_right List.not_mem_nil
  intro ps
  induction ps with
  | nil => exact fun next => ⟨.inl, fun hr => hr.resolve_right fun hr => List.not_mem_nil hr.2⟩
  | cons p ps ih =>
    intro next
    rw [List.foldl_cons, ih, List.mem_cons]
    by_cases hp : p ∈ visited ∨ p ∈ next
    · rw [if_pos hp]
      refine or_congr_right' fun hr => ?_
      refine and_congr_right fun hnew => ⟨.inr, fun hmem => hmem.resolve_left fun hrp => ?_⟩
      exact hp.elim (hrp ▸ hnew) (hrp ▸ hr)
    · rw [if_neg hp, List.mem_append, List.mem_singleton]
      have hnew : p ∉ visited := fun hv => hp (.inl hv)
      constructor
      · rintro ((hr | rfl) | ⟨hr, hmem⟩)
        · exact .inl hr
        · exact .inr ⟨hnew, .inl rfl⟩
        · exact .inr ⟨hr, .inr hmem⟩
      · rintro (hr | ⟨hr, rfl | hmem⟩)
        · exact .inl (.inl hr)
        · exact .inl (.inr rfl)
        · exact .inr ⟨hr, hmem⟩

theorem mem_of_mostAlike {qs : List Path} (hq : mostAlike p qs = some q) : q ∈ qs := by
  cases qs with
  | nil => cases hq
  | cons r qs =>
    suffices hfold : ∀ (rs : List Path) (best : Path),
        rs.foldl (fun best r => if p.similarity best < p.similarity r then r else best) best ∈
          best :: rs from Option.some.inj hq ▸ hfold qs r
    intro rs
    induction rs with
    | nil => exact fun best => List.mem_cons_self ..
    | cons s rs ih =>
      intro best
      rw [List.foldl_cons]
      rcases List.mem_cons.1 (ih (if p.similarity best < p.similarity s then s else best))
        with hbest | hrest
      · rw [hbest]
        split
        · exact List.mem_cons_of_mem _ (List.mem_cons_self ..)
        · exact List.mem_cons_self ..
      · exact List.mem_cons_of_mem _ (List.mem_cons_of_mem _ hrest)

theorem mostAlike_eq_none {qs : List Path} : mostAlike p qs = none ↔ qs = [] := by
  cases qs with
  | nil => exact ⟨fun _ => rfl, fun _ => rfl⟩
  | cons q qs =>
    exact ⟨fun h => absurd h (Option.some_ne_none _), fun h => absurd h (List.cons_ne_nil _ _)⟩

/-! ## The search -/

/-- **A search ends at files with a command only.** -/
theorem mem_known_of_closestFrom {n : Nat} (hq : g.closestFrom known p n visited level = some q) :
    q ∈ known := by
  induction n generalizing visited level with
  | zero => cases hq
  | succ n ih =>
    rw [closestFrom] at hq
    cases hbest : mostAlike p ((g.nextLevel visited level).filter (· ∈ known)) with
    | some r =>
      simp only [hbest] at hq
      obtain rfl := Option.some.inj hq
      exact of_decide_eq_true (List.mem_filter.1 (mem_of_mostAlike hbest)).2
    | none =>
      simp only [hbest] at hq
      split at hq
      · cases hq
      · exact ih hq

/-- Whether a search that has met no file with a command has come up to
`level`. -/
structure Search (g : IncludeGraph) (known visited level : List Path) : Prop where
  unknown : ∀ q ∈ visited, q ∉ known
  closed : ∀ q ∈ visited, q ∉ level → g.includers q ⊆ visited

/-- **A rooted file leaves something to visit.** -/
theorem Search.exists_next (hs : Search g known visited level) (hp : Rooted known g p)
    (hvisited : p ∈ visited) : ∃ r, r ∈ g.nextLevel visited level := by
  induction hp with
  | known hp => exact absurd hp (hs.unknown _ hvisited)
  | @included p q hq _ ih =>
    by_cases hold : q ∈ visited
    · exact ih hold
    · have hlevel : p ∈ level := by
        by_contra hlevel
        exact hold (hs.closed p hvisited hlevel hq)
      exact ⟨q, mem_nextLevel.2 ⟨hold, p, hlevel, hq⟩⟩

/-- One level further up. -/
theorem Search.next (hs : Search g known visited level)
    (hnone : (g.nextLevel visited level).filter (· ∈ known) = []) :
    Search g known (g.nextLevel visited level ++ visited) (g.nextLevel visited level) where
  unknown := by
    refine List.forall_mem_append.2 ⟨fun q hq hknown => ?_, hs.unknown⟩
    exact List.filter_eq_nil_iff.1 hnone q hq (decide_eq_true hknown)
  closed q hq hlevel r hr := by
    have hvisited := (List.mem_append.1 hq).resolve_left hlevel
    refine List.mem_append.2 ?_
    by_cases hold : r ∈ visited
    · exact .inr hold
    · refine .inl (mem_nextLevel.2 ⟨hold, q, ?_, hr⟩)
      by_contra hq'
      exact hold (hs.closed q hvisited hq' hr)

/-- All the includers that a graph records. -/
def allIncluders (g : IncludeGraph) : Finset Path := (g.flatMap Prod.snd).toFinset

theorem mem_allIncluders_of_mem_includers (hq : q ∈ g.includers p) : q ∈ g.allIncluders := by
  refine List.mem_toFinset.2 ?_
  induction g with
  | nil => exact absurd hq List.not_mem_nil
  | cons e g ih =>
    obtain ⟨r, is⟩ := e
    rw [includers_cons] at hq
    rw [List.flatMap_cons, List.mem_append]
    split at hq
    · exact .inl hq
    · exact .inr (ih hq)

theorem card_allIncluders_lt (g : IncludeGraph) :
    g.allIncluders.card < g.foldr (fun e edges => e.2.length + edges) 1 := by
  refine lt_of_le_of_lt (List.toFinset_card_le _) ?_
  induction g with
  | nil => exact Nat.one_pos
  | cons e g ih =>
    rw [List.flatMap_cons, List.length_append, List.foldr_cons]
    exact Nat.add_lt_add_left ih _

/-- **A search for a rooted file has an end** if it may go up as many
levels as there are includers left. -/
theorem closestFrom_of_rooted {n : Nat} (hs : Search g known visited level)
    (hr : Rooted known g r) (hvisited : r ∈ visited)
    (hroom : (g.allIncluders.filter (· ∉ visited)).card < n) :
    ∃ q ∈ known, g.closestFrom known p n visited level = some q := by
  suffices hsome : ∃ q, g.closestFrom known p n visited level = some q by
    obtain ⟨q, hq⟩ := hsome
    exact ⟨q, mem_known_of_closestFrom hq, hq⟩
  induction n generalizing visited level with
  | zero => exact absurd hroom (Nat.not_lt_zero _)
  | succ n ih =>
    rw [closestFrom]
    cases hbest : mostAlike p ((g.nextLevel visited level).filter (· ∈ known)) with
    | some q => exact ⟨q, rfl⟩
    | none =>
      obtain ⟨s, hs'⟩ := hs.exists_next hr hvisited
      have hne : (g.nextLevel visited level).isEmpty = false :=
        List.isEmpty_eq_false_iff.2 (List.ne_nil_of_mem hs')
      simp only [hne]
      refine ih (hs.next (mostAlike_eq_none.1 hbest)) (List.mem_append_right _ hvisited) ?_
      -- the level uses up an includer
      obtain ⟨hnew, q, -, hsq⟩ := mem_nextLevel.1 hs'
      have hcard := card_filter_append_lt (mem_allIncluders_of_mem_includers hsq) hnew hs'
      omega

/-- **A rooted file without a command has a closest includer** with one. -/
theorem closest?_of_rooted (hcanonical : p.IsCanonical) (hp : Rooted known g p) (hnew : p ∉ known) :
    ∃ q ∈ known, g.closest? known p = some q := by
  rw [closest?, hcanonical.joinAll_components]
  refine closestFrom_of_rooted (r := p) ⟨List.forall_mem_singleton.2 hnew, fun q hq hlevel => ?_⟩
    hp (List.mem_singleton_self p) ?_
  · exact absurd hq hlevel
  · exact lt_of_le_of_lt (Finset.card_filter_le _ _) g.card_allIncluders_lt

/-- A file that nothing includes has none. -/
theorem closest?_of_unincluded (hcanonical : p.IsCanonical) (hnone : g.includers p = []) :
    g.closest? known p = none := by
  have hnext : g.nextLevel [p] [p] = [] := by
    rw [nextLevel, List.flatMap_singleton, hnone, List.foldl_nil]
  rw [closest?, hcanonical.joinAll_components]
  generalize g.foldr (fun e edges => e.2.length + edges) 1 = n
  cases n with
  | zero => rfl
  | succ n =>
    rw [closestFrom, hnext]
    rfl

end IncludeGraph

end CompileCommands
