import CompileCommands.DirectoryPattern
import CompileCommands.Proofs.Path.Order
import CompileCommands.Proofs.Path.Spelled
/-!
# What a pattern expands to

A pattern without a glob is the path of a directory or of nothing, and
one with a glob is followed and what it leads to is sorted. Either way
the result is in the strict order of paths (`pairwise_of_expand`).
-/

namespace CompileCommands

namespace DirectoryPattern

variable {h : Host} {pattern : String} {ds : List Path}

/-- The pattern as a path, without the separators at its end. -/
def whole (pattern : String) : Path := ⟨String.ofList (trimmed pattern)⟩

theorem trimmed_subset (pattern : String) : trimmed pattern ⊆ pattern.toList := by
  unfold trimmed
  dsimp only
  split
  · exact List.Subset.refl _
  · intro c hc
    exact List.mem_reverse.1 ((List.dropWhile_suffix _).subset (List.mem_reverse.1 hc))

/-- What is left of a pattern without a glob has none either. -/
theorem isGlob_trimmed (hplain : isGlob pattern.toList = false) :
    isGlob (trimmed pattern) = false :=
  List.any_eq_false.2 fun c hc => List.any_eq_false.1 hplain c (trimmed_subset pattern hc)

theorem chars_whole (hne : pattern ≠ "") : (whole pattern).chars ≠ [] := by
  have hchars : (whole pattern).chars = trimmed pattern := String.toList_ofList
  rw [hchars]
  unfold trimmed
  dsimp only
  split
  · exact fun hnil => hne (String.toList_eq_nil_iff.1 hnil)
  · rename_i hsome
    exact fun hnil => hsome (List.isEmpty_iff.2 hnil)

theorem chars_onHost (p : Path) : (onHost p).chars ≠ [] := by
  unfold onHost
  split
  · exact List.cons_ne_nil _ _
  · rename_i hne
    exact fun hnil => hne (List.isEmpty_iff.2 hnil)

/-- The separators at the end make no difference to what a pattern means. -/
theorem whole_spec (pattern : String) :
    (whole pattern).components = (⟨pattern⟩ : Path).components ∧
      (whole pattern).steps = (⟨pattern⟩ : Path).steps ∧
      (whole pattern).isAbsolute = (⟨pattern⟩ : Path).isAbsolute := by
  have hchars : (whole pattern).chars = trimmed pattern := String.toList_ofList
  -- what is left and the separators that are dropped
  have hparts : pattern.toList = (pattern.toList.reverse.dropWhile (· == '/')).reverse ++
      (pattern.toList.reverse.takeWhile (· == '/')).reverse := by
    rw [← List.reverse_append, List.takeWhile_append_dropWhile, List.reverse_reverse]
  by_cases hempty : (pattern.toList.reverse.dropWhile (· == '/')).reverse = []
  · have hall : trimmed pattern = pattern.toList := by
      unfold trimmed
      dsimp only
      rw [if_pos (List.isEmpty_iff.2 hempty)]
    rw [whole, hall, String.ofList_toList]
    exact ⟨rfl, rfl, rfl⟩
  · have hrest : trimmed pattern = (pattern.toList.reverse.dropWhile (· == '/')).reverse := by
      unfold trimmed
      dsimp only
      rw [if_neg fun hnil => hempty (List.isEmpty_iff.1 hnil)]
    have hdropped : ∀ c ∈ (pattern.toList.reverse.takeWhile (· == '/')).reverse,
        (c == '/') = true := by
      intro c hc
      have hsep := List.mem_takeWhile_imp (List.mem_reverse.1 hc)
      exact hsep
    rw [← hrest, ← hchars] at hempty hparts
    obtain ⟨hcomponents, hsteps, habs⟩ :=
      Path.components_of_chars_append (p := ⟨pattern⟩) hempty hdropped hparts
    exact ⟨hcomponents.symm, hsteps.symm, habs.symm⟩

theorem expand_of_not_isGlob (hplain : isGlob (trimmed pattern) = false) :
    expand h pattern = .ok (if h.isDirectory (whole pattern) then [whole pattern] else []) := by
  unfold expand
  dsimp only
  rw [if_neg (by rw [hplain]; exact Bool.false_ne_true)]
  rfl

theorem expand_of_isDirectory (hplain : isGlob (trimmed pattern) = false)
    (hdirectory : h.isDirectory (whole pattern) = true) :
    expand h pattern = .ok [whole pattern] := by
  rw [expand_of_not_isGlob hplain, if_pos hdirectory]

theorem expand_of_isGlob (hglob : isGlob (trimmed pattern) = true) :
    expand h pattern =
      (follow h pattern [Path.empty] (whole pattern).components).map sortPaths := by
  unfold expand
  dsimp only
  rw [if_pos hglob]
  rfl

/-- **A pattern expands to paths in strict order.** -/
theorem pairwise_of_expand (hds : expand h pattern = .ok ds) : ds.Pairwise Path.Precedes := by
  cases hglob : isGlob (trimmed pattern) with
  | true =>
    rw [expand_of_isGlob hglob] at hds
    cases hreached : follow h pattern [Path.empty] (whole pattern).components with
    | error e =>
      rw [hreached] at hds
      cases hds
    | ok reached =>
      rw [hreached] at hds
      have hsorted : sortPaths reached = ds := Except.ok.inj hds
      rw [← hsorted]
      exact pairwise_sortPaths reached
  | false =>
    rw [expand_of_not_isGlob hglob] at hds
    rw [← Except.ok.inj hds]
    split
    · exact List.pairwise_singleton ..
    · exact .nil

end DirectoryPattern

end CompileCommands
