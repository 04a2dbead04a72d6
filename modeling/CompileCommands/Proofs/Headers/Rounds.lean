import CompileCommands.Headers.Inference
import Mathlib.Data.List.Nodup
/-!
# What rounds find

A round finds the headers that its frontier includes and that are not
known yet, each once (`mem_headers_round`, `nodup_headers_round`), and
the lender of each stands in the frontier. What a run finds unfolds
round by round into one equation (`found_roundsUpTo_succ`), so a fact
about a whole run is an induction on the number of rounds, whether the
run ends early or not.
-/

namespace CompileCommands

namespace Inference

variable {h : Host} {known : List Path} {frontier : List Source} {fs : List Finding}
variable {f : Finding} {p : Path} {s : Source} {o : Path × Source} {os : List (Path × Source)}

/-! ## Taking one header in -/

theorem headers_consider (fs : List Finding) (o : Path × Source) :
    (consider fs o).map Finding.header =
      if o.1 ∈ fs.map Finding.header then fs.map Finding.header
      else fs.map Finding.header ++ [o.1] := by
  induction fs with
  | nil => rfl
  | cons f fs ih =>
    by_cases hf : f.header = o.1
    · have hmem : o.1 ∈ (f :: fs).map Finding.header :=
        List.mem_map.2 ⟨f, List.mem_cons_self .., hf⟩
      rw [if_pos hmem, consider, if_pos hf, List.map_cons, List.map_cons]
      split
      · exact congrArg (· :: _) hf.symm
      · rfl
    · have hiff : o.1 ∈ f.header :: fs.map Finding.header ↔ o.1 ∈ fs.map Finding.header := by
        rw [List.mem_cons, or_iff_right (Ne.symm hf)]
      rw [consider, if_neg hf, List.map_cons, ih, List.map_cons]
      by_cases hmem : o.1 ∈ fs.map Finding.header
      · rw [if_pos hmem, if_pos (hiff.2 hmem)]
      · rw [if_neg hmem, if_neg (fun hc => hmem (hiff.1 hc)), List.cons_append]

/-- A finding is kept as it was or taken over by what is offered. -/
theorem mem_consider (hf : f ∈ consider fs o) : f ∈ fs ∨ (f.header, f.lender) = o := by
  induction fs with
  | nil =>
    obtain rfl := List.mem_singleton.1 hf
    exact .inr rfl
  | cons g fs ih =>
    by_cases hg : g.header = o.1
    · rw [consider, if_pos hg] at hf
      rcases List.mem_cons.1 hf with hf | hf
      · split at hf
        · subst hf; exact .inr rfl
        · subst hf; exact .inl (List.mem_cons_self ..)
      · exact .inl (List.mem_cons_of_mem _ hf)
    · rw [consider, if_neg hg] at hf
      rcases List.mem_cons.1 hf with rfl | hf
      · exact .inl (List.mem_cons_self ..)
      · exact (ih hf).imp_left (List.mem_cons_of_mem _)

/-! ## Taking all headers in -/

theorem mem_headers_foldl_consider :
    p ∈ (os.foldl consider fs).map Finding.header ↔
      p ∈ fs.map Finding.header ∨ ∃ s, (p, s) ∈ os := by
  induction os generalizing fs with
  | nil => simp
  | cons o os ih =>
    have hone : p ∈ (consider fs o).map Finding.header ↔
        p ∈ fs.map Finding.header ∨ p = o.1 := by
      rw [headers_consider]
      split
      · rename_i hmem
        exact ⟨.inl, fun hp => hp.elim id fun hp => hp ▸ hmem⟩
      · rw [List.mem_append, List.mem_singleton]
    have hsome : (∃ s, (p, s) ∈ o :: os) ↔ p = o.1 ∨ ∃ s, (p, s) ∈ os := by
      constructor
      · rintro ⟨s, hs⟩
        rcases List.mem_cons.1 hs with rfl | hs
        · exact .inl rfl
        · exact .inr ⟨s, hs⟩
      · rintro (rfl | ⟨s, hs⟩)
        · exact ⟨o.2, List.mem_cons_self ..⟩
        · exact ⟨s, List.mem_cons_of_mem _ hs⟩
    rw [List.foldl_cons, ih, hone, hsome, or_assoc]

theorem nodup_headers_foldl_consider (hfs : (fs.map Finding.header).Nodup) :
    ((os.foldl consider fs).map Finding.header).Nodup := by
  induction os generalizing fs with
  | nil => exact hfs
  | cons o os ih =>
    refine ih ?_
    rw [headers_consider]
    split
    · exact hfs
    · rename_i hmem
      refine List.nodup_append.2 ⟨hfs, List.nodup_singleton _, ?_⟩
      rintro q hq r hr rfl
      exact hmem (List.mem_singleton.1 hr ▸ hq)

theorem mem_foldl_consider (hf : f ∈ os.foldl consider fs) :
    f ∈ fs ∨ (f.header, f.lender) ∈ os := by
  induction os generalizing fs with
  | nil => exact .inl hf
  | cons o os ih =>
    rcases ih hf with hf | hf
    · rcases mem_consider hf with hf | rfl
      · exact .inl hf
      · exact .inr (List.mem_cons_self ..)
    · exact .inr (List.mem_cons_of_mem _ hf)

/-! ## One round -/

/-- The headers that a round has found. -/
def Round.headers (r : Round) : List Path := r.findings.map Finding.header

theorem mem_offers :
    (p, s) ∈ offers h known frontier ↔
      s ∈ frontier ∧ p ∈ s.command.includedFiles h ∧ p ∉ known := by
  simp only [offers, List.mem_flatMap, List.mem_map, List.mem_filter, decide_eq_true_eq,
    Prod.mk.injEq]
  constructor
  · rintro ⟨t, ht, q, hq, rfl, rfl⟩
    exact ⟨ht, hq⟩
  · rintro ⟨hs, hp⟩
    exact ⟨s, hs, p, hp, rfl, rfl⟩

/-- **A round finds what its frontier includes and nobody knows.** -/
theorem mem_headers_round :
    p ∈ (round h known frontier).headers ↔
      p ∉ known ∧ ∃ s ∈ frontier, p ∈ s.command.includedFiles h := by
  rw [Round.headers, round, mem_headers_foldl_consider]
  simp only [mem_offers, List.map_nil, List.not_mem_nil, false_or]
  constructor
  · rintro ⟨s, hs, hp, hknown⟩
    exact ⟨hknown, s, hs, hp⟩
  · rintro ⟨hknown, s, hs, hp⟩
    exact ⟨s, hs, hp, hknown⟩

/-- **A round finds each header once.** -/
theorem nodup_headers_round : (round h known frontier).headers.Nodup :=
  nodup_headers_foldl_consider List.nodup_nil

/-- A header is lent by a source of the frontier that includes it. -/
theorem lender_of_mem_round (hf : f ∈ (round h known frontier).findings) :
    f.lender ∈ frontier ∧ f.header ∈ f.lender.command.includedFiles h ∧ f.header ∉ known := by
  rcases mem_foldl_consider hf with hf | hf
  · exact absurd hf List.not_mem_nil
  · exact mem_offers.1 hf

theorem mem_next {r : Round} : s ∈ r.next h ↔ ∃ f ∈ r.findings, f.source h = s := by
  rw [Round.next, List.mem_mergeSort, List.mem_map]

/-! ## A whole run -/

/-- What rounds have found, in order. -/
def found (rs : List Round) : List Finding := rs.flatMap Round.findings

theorem found_roundsUpTo_nil (n : Nat) : found (roundsUpTo h n known []) = [] := by
  cases n <;> rfl

/-- **What a run finds** is what its first round finds, and then what the
others find from there. -/
theorem found_roundsUpTo_succ (n : Nat) (known : List Path) (frontier : List Source) :
    found (roundsUpTo h (n + 1) known frontier) =
      (round h known frontier).findings ++
        found (roundsUpTo h n ((round h known frontier).headers ++ known)
          ((round h known frontier).next h)) := by
  -- a round that finds nothing ends the run, and leaves nothing to scan either
  by_cases hnone : (round h known frontier).findings = []
  · have hnext : (round h known frontier).next h = [] := by
      rw [Round.next, hnone, List.map_nil, List.mergeSort_nil]
    rw [hnext, found_roundsUpTo_nil, hnone]
    cases frontier with
    | nil => rfl
    | cons s frontier => simp [roundsUpTo, hnone, found]
  · cases frontier with
    | nil => exact absurd rfl hnone
    | cons s frontier => simp [roundsUpTo, hnone, found, Round.headers]

/-- A run over a frontier that includes nothing new finds nothing. -/
theorem found_of_closed (n : Nat)
    (hclosed : ∀ s ∈ frontier, ∀ p ∈ s.command.includedFiles h, p ∈ known) :
    found (roundsUpTo h n known frontier) = [] := by
  have hnone : (round h known frontier).findings = [] := by
    rw [← List.map_eq_nil_iff (f := Finding.header)]
    refine List.eq_nil_iff_forall_not_mem.2 fun p hp => ?_
    obtain ⟨hnew, s, hs, hincluded⟩ := mem_headers_round.1 hp
    exact hnew (hclosed s hs p hincluded)
  have hnext : (round h known frontier).next h = [] := by
    rw [Round.next, hnone, List.map_nil, List.mergeSort_nil]
  cases n with
  | zero => rfl
  | succ n => rw [found_roundsUpTo_succ, hnone, hnext, found_roundsUpTo_nil, List.nil_append]

/-- **No header is found twice, and none that was known.** -/
theorem fresh_found (n : Nat) (known : List Path) (frontier : List Source) :
    ((found (roundsUpTo h n known frontier)).map Finding.header).Nodup ∧
      ∀ f ∈ found (roundsUpTo h n known frontier), f.header ∉ known := by
  induction n generalizing known frontier with
  | zero => exact ⟨List.nodup_nil, fun f hf => absurd hf List.not_mem_nil⟩
  | succ n ih =>
    obtain ⟨hnodup, hfresh⟩ := ih ((round h known frontier).headers ++ known)
      ((round h known frontier).next h)
    rw [found_roundsUpTo_succ, List.map_append]
    refine ⟨List.nodup_append.2 ⟨nodup_headers_round, hnodup, ?_⟩, ?_⟩
    · -- later rounds know what this one has found
      rintro p hp q hq rfl
      obtain ⟨f, hf, rfl⟩ := List.mem_map.1 hq
      exact hfresh f hf (List.mem_append_left _ hp)
    · intro f hf
      rcases List.mem_append.1 hf with hf | hf
      · exact (lender_of_mem_round hf).2.2
      · exact fun hk => hfresh f hf (List.mem_append_right _ hk)

theorem fresh_rounds (h : Host) (known : List Path) (frontier : List Source) :
    ((found (rounds h known frontier)).map Finding.header).Nodup ∧
      ∀ f ∈ found (rounds h known frontier), f.header ∉ known := by
  rw [rounds]
  exact fresh_found _ known frontier

/-- **Every lender came before**: it was there at the start, or borrowed
its own command in the course of the run. -/
theorem lender_of_found {n : Nat} {before after : List Finding}
    (hrun : found (roundsUpTo h n known frontier) = before ++ f :: after) :
    (f.lender ∈ frontier ∨ f.lender ∈ before.map (Finding.source h)) ∧
      f.header ∈ f.lender.command.includedFiles h := by
  -- the finding is this round's or a later one's, as `before` falls short of this round or not
  induction n generalizing known frontier before with
  | zero => exact absurd hrun.symm (by simp [roundsUpTo, found])
  | succ n ih =>
    rw [found_roundsUpTo_succ, List.append_eq_append_iff] at hrun
    -- where the lender stands in the next frontier, this round has found it
    have hlater : ∀ earlier, before = (round h known frontier).findings ++ earlier →
        found (roundsUpTo h n ((round h known frontier).headers ++ known)
          ((round h known frontier).next h)) = earlier ++ f :: after →
        (f.lender ∈ frontier ∨ f.lender ∈ before.map (Finding.source h)) ∧
          f.header ∈ f.lender.command.includedFiles h := by
      rintro earlier rfl hrest
      obtain ⟨hlender, hheader⟩ := ih hrest
      refine ⟨.inr ?_, hheader⟩
      rw [List.map_append, List.mem_append]
      refine hlender.imp_left fun hnext => ?_
      obtain ⟨g, hg, hsource⟩ := mem_next.1 hnext
      exact List.mem_map.2 ⟨g, hg, hsource⟩
    rcases hrun with ⟨earlier, hbefore, hrest⟩ | ⟨middle, hround, hrest⟩
    · exact hlater earlier hbefore hrest
    · cases middle with
      | nil => exact hlater [] (by rw [hround]; simp) hrest.symm
      | cons g middle =>
        obtain ⟨rfl, -⟩ := List.cons.inj hrest
        have hf : f ∈ (round h known frontier).findings :=
          hround ▸ List.mem_append_right _ (List.mem_cons_self ..)
        obtain ⟨hlender, hheader, -⟩ := lender_of_mem_round hf
        exact ⟨.inl hlender, hheader⟩

end Inference

end CompileCommands
