import CompileCommands.Proofs.Headers.Distance
import CompileCommands.Proofs.Headers.Lenders
import CompileCommands.Proofs.Similarity.SharedRun
/-!
# Ranking files by their names

Every subword that two stems share counts for them, and every subword of
either that they do not share counts against them. So no file is more
alike than one of the same subwords in the same directory
(`similarity_le`, `similarity_eq_iff`), and it makes no difference which
of the two is compared with the other (`similarity_comm`). Header
inference asks how alike an includer is to a header, and the index how
alike the header is to an includer; of the same candidates both choose
the same (`lenders_eq_mostAlike`).
-/

namespace CompileCommands

variable {p q p' q' : Path}

namespace Path

/-! ## How alike two files are -/

/-- Each shared subword is one of either stem, so it makes up for two that
count against the files. -/
theorem similarity_eq (p q : Path) : p.similarity q =
    30 * (SharedRun.longest p.stemWords q.stemWords : Int) -
      10 * (p.stemWords.length + q.stemWords.length) + if p.isSibling q then 50 else 0 := by
  unfold similarity
  dsimp only
  omega

theorem isSibling_iff :
    p.isSibling q = true ↔ p.parent?.map components = q.parent?.map components := beq_iff_eq

theorem isSibling_comm (p q : Path) : p.isSibling q = q.isSibling p := by
  rw [Bool.eq_iff_iff, isSibling_iff, isSibling_iff, eq_comm]

/-- **Two files are equally alike**, whichever is compared with the
other. -/
theorem similarity_comm (p q : Path) : p.similarity q = q.similarity p := by
  rw [similarity_eq, similarity_eq, SharedRun.longest_comm, isSibling_comm,
    Int.add_comm (p.stemWords.length : Int)]

/-- **No file is more alike** than one with the same subwords in the same
directory. -/
theorem similarity_le (p q : Path) : p.similarity q ≤ 10 * p.stemWords.length + 50 := by
  have hleft := SharedRun.longest_le_left p.stemWords q.stemWords
  have hright := SharedRun.longest_le_right p.stemWords q.stemWords
  rw [similarity_eq]
  split <;> omega

/-- **And such files only** are as alike as that. -/
theorem similarity_eq_iff : p.similarity q = 10 * p.stemWords.length + 50 ↔
    p.stemWords = q.stemWords ∧ p.parent?.map components = q.parent?.map components := by
  have hleft := SharedRun.longest_le_left p.stemWords q.stemWords
  have hright := SharedRun.longest_le_right p.stemWords q.stemWords
  rw [← isSibling_iff, similarity_eq]
  constructor
  · intro hmost
    have hsibling : p.isSibling q = true := by
      by_contra hother
      rw [if_neg hother] at hmost
      omega
    rw [if_pos hsibling] at hmost
    -- all subwords of either stem are shared
    have hshared : SharedRun.longest p.stemWords q.stemWords = p.stemWords.length := by omega
    have hlength : p.stemWords.length = q.stemWords.length := by omega
    exact ⟨(SharedRun.infix_of_longest_eq hshared).eq_of_length hlength, hsibling⟩
  · rintro ⟨hwords, hsibling⟩
    rw [if_pos hsibling, hwords, SharedRun.longest_self]
    omega

/-- **Files of one directory** are fifty more alike than files of the same
names elsewhere. -/
theorem similarity_of_siblings (hp : p'.stemWords = p.stemWords) (hq : q'.stemWords = q.stemWords)
    (hpq : p.parent?.map components = q.parent?.map components)
    (hpq' : p'.parent?.map components ≠ q'.parent?.map components) :
    p.similarity q = p'.similarity q' + 50 := by
  rw [similarity_eq, similarity_eq, hp, hq, if_pos (isSibling_iff.2 hpq),
    if_neg fun hsibling => hpq' (isSibling_iff.1 hsibling)]
  omega

end Path

/-! ## The most alike of several -/

namespace Inference

/-- **What becomes of a header** that several sources offer: it goes to the
first of the most alike. -/
theorem foldl_consider (p : Path) (ss : List Source) :
    (ss.map fun s => (p, s)).foldl consider [] =
      (firstGreatest? (Source.alike p) ss).toList.map fun s => ⟨p, s.alike p, s⟩ := by
  induction ss using List.reverseRecOn with
  | nil => rfl
  | append_singleton ss s ih =>
    rw [List.map_append, List.map_singleton, List.foldl_append, ih, firstGreatest?_concat]
    cases firstGreatest? (Source.alike p) ss with
    | none => rfl
    | some m =>
      rw [Option.toList_some, List.map_singleton, List.foldl_cons, List.foldl_nil, consider,
        if_pos rfl]
      change [if m.alike p < s.alike p then Finding.mk p (s.alike p) s else ⟨p, m.alike p, m⟩] = _
      dsimp only
      split <;> rfl

/-- **Inference and the index rank alike**: of the same candidates both
choose the same. -/
theorem lenders_eq_mostAlike (p : Path) (ss : List Source) :
    ((ss.map fun s => (p, s)).foldl consider []).map
        (fun f => f.lender.command.normalizedFile) =
      (IncludeGraph.mostAlike p (ss.map fun s => s.command.normalizedFile)).toList := by
  have halike : Source.alike p = fun s => p.similarity s.command.normalizedFile :=
    funext fun s => Path.similarity_comm s.command.normalizedFile p
  rw [foldl_consider, IncludeGraph.mostAlike_eq, firstGreatest?_map, halike]
  cases firstGreatest? (fun s : Source => p.similarity s.command.normalizedFile) ss <;> rfl

end Inference

/-- **How alike two files are** is the same from either side, so that
inference and the index rank candidates alike. It is at most what a file
of the same subwords in the same directory reaches, and that only such a
file reaches. Of files with given stems those of one directory are fifty
more alike than those of different ones. -/
theorem Path.similarity_ranks_alike :
    (∀ p q : Path, p.similarity q = q.similarity p) ∧
    (∀ (p : Path) (ss : List Inference.Source),
      ((ss.map fun s => (p, s)).foldl Inference.consider []).map
          (fun f => f.lender.command.normalizedFile) =
        (IncludeGraph.mostAlike p (ss.map fun s => s.command.normalizedFile)).toList) ∧
    (∀ p q : Path, p.similarity q ≤ 10 * p.stemWords.length + 50) ∧
    (∀ p q : Path, p.similarity q = 10 * p.stemWords.length + 50 ↔
      p.stemWords = q.stemWords ∧ p.parent?.map components = q.parent?.map components) ∧
    ∀ p q p' q' : Path, p'.stemWords = p.stemWords → q'.stemWords = q.stemWords →
      p.parent?.map components = q.parent?.map components →
      p'.parent?.map components ≠ q'.parent?.map components →
      p.similarity q = p'.similarity q' + 50 :=
  ⟨similarity_comm, Inference.lenders_eq_mostAlike, similarity_le, fun _ _ => similarity_eq_iff,
    fun _ _ _ _ => similarity_of_siblings⟩

/-- A header that shares a subword with a source, next to it and
elsewhere. -/
theorem Path.similarity_ranks_alike_near_and_far :
    let source : Path := ⟨"/p/src/FooBar.cpp"⟩
    let near : Path := ⟨"/p/src/Foo.hpp"⟩
    let far : Path := ⟨"/p/include/Foo.hpp"⟩
    near.similarity source = 50 ∧ far.similarity source = 0 ∧
      source.similarity near = far.similarity source + 50 := by
  intro source near far
  obtain ⟨hcomm, -, -, -, hsiblings⟩ := Path.similarity_ranks_alike
  have hbonus := hsiblings source near source far rfl (by decide) (by decide) (by decide)
  refine ⟨by decide, by decide, ?_⟩
  rw [hbonus, hcomm source far]

end CompileCommands
