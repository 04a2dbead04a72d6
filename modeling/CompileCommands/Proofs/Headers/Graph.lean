import CompileCommands.Headers.IncludeGraph
import Mathlib.Data.List.Nodup
/-!
# Edges of an include graph

What one more edge does to a graph: the includers of one file grow by at
most one, and the files of the graph by at most the file itself
(`mem_includers_addEdge`, `mem_files_addEdge`). A file is rooted if its
includers lead up to a file with a command, and more edges root no fewer
files (`Rooted.mono`).
-/

namespace CompileCommands

namespace IncludeGraph

variable {g g' : IncludeGraph} {known : List Path} {p q r s : Path} {is : List Path}

/-- The files whose includers are recorded. -/
def files (g : IncludeGraph) : List Path := g.map Prod.fst

theorem includers_cons (g : IncludeGraph) (p : Path) (is : List Path) (r : Path) :
    includers ((p, is) :: g) r = if p = r then is else includers g r := by
  unfold includers
  rw [List.lookup_cons]
  by_cases hr : r = p
  · simp [hr]
  · rw [beq_eq_false_iff_ne.2 hr, if_neg (Ne.symm hr)]

theorem mem_files_of_mem_includers (hq : q ∈ g.includers p) : p ∈ g.files := by
  induction g with
  | nil => exact absurd hq List.not_mem_nil
  | cons e g ih =>
    obtain ⟨r, is⟩ := e
    rw [includers_cons] at hq
    split at hq
    · rename_i hr
      exact hr ▸ List.mem_cons_self ..
    · exact List.mem_cons_of_mem _ (ih hq)

/-! ## One more edge -/

theorem includers_insert (g : IncludeGraph) (p q r : Path) :
    (g.insert p q).includers r =
      if p = r then (if q ∈ g.includers p then g.includers p else g.includers p ++ [q])
      else g.includers r := by
  induction g with
  | nil => rw [insert, includers_cons]; rfl
  | cons e g ih =>
    obtain ⟨k, is⟩ := e
    by_cases hk : k = p
    · subst hk
      rw [insert, if_pos rfl, includers_cons, includers_cons, includers_cons, if_pos rfl]
      split <;> rfl
    · rw [insert, if_neg hk, includers_cons, ih, includers_cons, includers_cons, if_neg hk]
      by_cases hr : k = r
      · rw [if_pos hr, if_pos hr, if_neg (fun hp => hk (hr.trans hp.symm))]
      · rw [if_neg hr, if_neg hr]

theorem mem_includers_insert :
    s ∈ (g.insert p q).includers r ↔ s ∈ g.includers r ∨ r = p ∧ s = q := by
  rw [includers_insert]
  by_cases hr : p = r
  · subst hr
    rw [if_pos rfl]
    split
    · rename_i hq
      exact ⟨.inl, fun hs => hs.elim id fun hs => hs.2 ▸ hq⟩
    · simp
  · rw [if_neg hr]
    exact ⟨.inl, fun hs => hs.elim id fun hs => absurd hs.1.symm hr⟩

theorem files_insert (g : IncludeGraph) (p q : Path) :
    (g.insert p q).files = if p ∈ g.files then g.files else g.files ++ [p] := by
  induction g with
  | nil => rfl
  | cons e g ih =>
    obtain ⟨k, is⟩ := e
    by_cases hk : k = p
    · rw [insert, if_pos hk]
      exact (if_pos (hk ▸ List.mem_cons_self ..)).symm
    · have hcons : ∀ is g, files ((k, is) :: g) = k :: files g := fun _ _ => rfl
      have hiff : p ∈ k :: files g ↔ p ∈ files g := by
        rw [List.mem_cons, or_iff_right (Ne.symm hk)]
      rw [insert, if_neg hk, hcons, hcons, ih]
      by_cases hp : p ∈ files g
      · rw [if_pos hp, if_pos (hiff.2 hp)]
      · rw [if_neg hp, if_neg (fun hp' => hp (hiff.1 hp')), List.cons_append]

/-- **An edge is recorded** unless it leads from a file to itself or the
file has a command. -/
theorem mem_includers_addEdge :
    s ∈ (g.addEdge known p q).includers r ↔
      s ∈ g.includers r ∨ r = p ∧ s = q ∧ p ≠ q ∧ p ∉ known := by
  unfold addEdge
  split
  · rename_i hskip
    refine ⟨.inl, fun hs => hs.elim id fun hs => ?_⟩
    exact absurd hskip (not_or.2 hs.2.2)
  · rename_i hkeep
    have hkeep := not_or.1 hkeep
    rw [mem_includers_insert]
    exact or_congr_right ⟨fun hs => ⟨hs.1, hs.2, hkeep⟩, fun hs => ⟨hs.1, hs.2.1⟩⟩

theorem mem_files_addEdge :
    r ∈ (g.addEdge known p q).files ↔ r ∈ g.files ∨ r = p ∧ p ≠ q ∧ p ∉ known := by
  unfold addEdge
  split
  · rename_i hskip
    refine ⟨.inl, fun hr => hr.elim id fun hr => ?_⟩
    exact absurd hskip (not_or.2 hr.2)
  · rename_i hkeep
    have hkeep := not_or.1 hkeep
    rw [files_insert]
    split
    · rename_i hp
      exact ⟨.inl, fun hr => hr.elim id fun hr => hr.1 ▸ hp⟩
    · rw [List.mem_append, List.mem_singleton]
      exact or_congr_right ⟨fun hr => ⟨hr, hkeep⟩, fun hr => hr.1⟩

theorem nodup_files_addEdge (hg : g.files.Nodup) : (g.addEdge known p q).files.Nodup := by
  unfold addEdge
  split
  · exact hg
  · rw [files_insert]
    split
    · exact hg
    · rename_i hp
      exact List.nodup_append.2 ⟨hg, List.nodup_singleton p, fun a ha b hb hab =>
        hp (List.mem_singleton.1 hb ▸ hab ▸ ha)⟩

/-! ## Rooted files -/

/-- Whether a file has a command or is included, directly or through
others, by one that has. -/
inductive Rooted (known : List Path) (g : IncludeGraph) : Path → Prop
  | known {p : Path} : p ∈ known → Rooted known g p
  | included {p q : Path} : q ∈ g.includers p → Rooted known g q → Rooted known g p

/-- More edges root no fewer files. -/
theorem Rooted.mono (hp : Rooted known g p)
    (hedges : ∀ r s, s ∈ g.includers r → s ∈ g'.includers r) : Rooted known g' p := by
  induction hp with
  | known hp => exact .known hp
  | included hq _ ih => exact .included (hedges _ _ hq) ih

end IncludeGraph

end CompileCommands
