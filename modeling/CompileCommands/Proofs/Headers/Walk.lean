import CompileCommands.Proofs.FileTree.Reach
import CompileCommands.Proofs.Headers.Graph
import CompileCommands.Proofs.Headers.Identity
/-!
# Walking the includes

A walk takes one include after the other from its stack. One equation
for each thing that can become of it, and the induction over them
(`walkStack_induction`), stand for the definition from there on. Three
facts come out. Every file that is reached is rooted in the graph
(`IsSound.walkAll`), although no edge leads to a file that has a command
and none from a file to itself. The limit is never what ends a walk
(`stackRun_main`). And whatever a reached file includes, in the search
directories of the command that reached it, is reached as well
(`IsClosed.walkAll`).
-/

namespace CompileCommands

variable {h : Host} {known directories : List Path} {p q f main : Path}

namespace Host

/-- The files that a file includes, looked for in the given
directories. -/
def includedBy (h : Host) (directories : List Path) (f : Path) : List Path :=
  (h.includesOf f).filterMap fun i => i.file? h f directories

theorem mem_includedBy : p ∈ h.includedBy directories f ↔
    ∃ i ∈ h.includesOf f, i.file? h f directories = some p :=
  List.mem_filterMap

/-- Whether includes lead from one file to another, all of them looked
for in the same directories. -/
inductive Leads (h : Host) (directories : List Path) (main : Path) : Path → Prop
  | refl : Leads h directories main main
  | step {f p : Path} : Leads h directories main f → p ∈ h.includedBy directories f →
      Leads h directories main p

end Host

theorem CompileCommand.includedFiles_eq (h : Host) (c : CompileCommand) :
    c.includedFiles h = h.includedBy c.searchDirectories c.normalizedFile := rfl

namespace IncludeGraph

variable {w : Walk} {limit : Nat} {i : Include} {is : List Include}
variable {stack : List (Path × List Include)}

/-! ## One include -/

/-- The walk after an include has been looked for in vain. -/
def Walk.miss (w : Walk) (line : LogLine) : Walk := { w with lines := w.lines ++ [line] }

/-- The walk after the file `f` has been found to include `p`. -/
def Walk.hit (w : Walk) (line : LogLine) (known : List Path) (p f : Path) : Walk :=
  { w with lines := w.lines ++ [line], graph := w.graph.addEdge known p f }

theorem walkStack_nil : walkStack h known directories limit [] w = w := by
  rw [walkStack]

/-- A file whose includes have all been taken. -/
theorem walkStack_done : walkStack h known directories limit ((f, []) :: stack) w =
    walkStack h known directories limit stack w := by
  rw [walkStack]

theorem walkStack_miss (hi : i.file? h f directories = none) :
    walkStack h known directories limit ((f, i :: is) :: stack) w =
      walkStack h known directories limit ((f, is) :: stack)
        (w.miss (i.searchLine h f directories)) := by
  rw [walkStack]
  simp only [hi]
  rfl

/-- A file that has been reached before. -/
theorem walkStack_again (hi : i.file? h f directories = some p) (hp : p ∈ w.reached) :
    walkStack h known directories limit ((f, i :: is) :: stack) w =
      walkStack h known directories limit ((f, is) :: stack)
        (w.hit (i.searchLine h f directories) known p f) := by
  rw [walkStack]
  simp only [hi, if_pos hp]
  rfl

/-- A file that is reached and includes nothing. -/
theorem walkStack_leaf (hi : i.file? h f directories = some p) (hp : p ∉ w.reached)
    (hnone : h.includesOf p = []) :
    walkStack h known directories limit ((f, i :: is) :: stack) w =
      walkStack h known directories limit ((f, is) :: stack)
        ((w.hit (i.searchLine h f directories) known p f).reach h p) := by
  rw [walkStack]
  simp only [hi, if_neg hp, hnone]
  rfl

/-- A file that may not be gone into any more. -/
theorem walkStack_stop (hi : i.file? h f directories = some p) (hp : p ∉ w.reached)
    (hinner : h.includesOf p ≠ []) :
    walkStack h known directories 0 ((f, i :: is) :: stack) w =
      w.hit (i.searchLine h f directories) known p f := by
  rw [walkStack]
  simp only [hi, if_neg hp]
  rfl

/-- A file that is reached and gone into. -/
theorem walkStack_enter (hi : i.file? h f directories = some p) (hp : p ∉ w.reached)
    (hinner : h.includesOf p ≠ []) :
    walkStack h known directories (limit + 1) ((f, i :: is) :: stack) w =
      walkStack h known directories limit ((p, h.includesOf p) :: (f, is) :: stack)
        ((w.hit (i.searchLine h f directories) known p f).reach h p) := by
  rw [walkStack]
  simp only [hi, if_neg hp]
  rfl

/-- A command whose main file has been reached is passed over. -/
theorem walkCommand_again {c : CompileCommand} (hc : c.normalizedFile ∈ w.reached) :
    walkCommand h known w c = w := if_pos hc

theorem walkCommand_enter {c : CompileCommand} (hc : c.normalizedFile ∉ w.reached) :
    walkCommand h known w c =
      walkStack h known c.searchDirectories (reachLimit h)
        [(c.normalizedFile, h.includesOf c.normalizedFile)] (w.reach h c.normalizedFile) :=
  if_neg hc

/-- What becomes of the first include decides the whole of it: an
induction over a walk has these cases. -/
theorem walkStack_induction (h : Host) (known directories : List Path)
    {motive : Nat → List (Path × List Include) → Walk → Prop}
    (nil : ∀ limit w, motive limit [] w)
    (done : ∀ limit f stack w, motive limit stack w → motive limit ((f, []) :: stack) w)
    (miss : ∀ limit f i is stack w, i.file? h f directories = none →
      motive limit ((f, is) :: stack) (w.miss (i.searchLine h f directories)) →
      motive limit ((f, i :: is) :: stack) w)
    (again : ∀ limit f i is stack w p, i.file? h f directories = some p → p ∈ w.reached →
      motive limit ((f, is) :: stack) (w.hit (i.searchLine h f directories) known p f) →
      motive limit ((f, i :: is) :: stack) w)
    (leaf : ∀ limit f i is stack w p, i.file? h f directories = some p → p ∉ w.reached →
      h.includesOf p = [] →
      motive limit ((f, is) :: stack)
        ((w.hit (i.searchLine h f directories) known p f).reach h p) →
      motive limit ((f, i :: is) :: stack) w)
    (stop : ∀ f i is stack w p, i.file? h f directories = some p → p ∉ w.reached →
      h.includesOf p ≠ [] → motive 0 ((f, i :: is) :: stack) w)
    (enter : ∀ limit f i is stack w p, i.file? h f directories = some p → p ∉ w.reached →
      h.includesOf p ≠ [] →
      motive limit ((p, h.includesOf p) :: (f, is) :: stack)
        ((w.hit (i.searchLine h f directories) known p f).reach h p) →
      motive (limit + 1) ((f, i :: is) :: stack) w)
    (limit : Nat) (stack : List (Path × List Include)) (w : Walk) : motive limit stack w := by
  induction limit, stack, w using walkStack.induct h known directories with
  | case1 limit w => exact nil limit w
  | case2 limit w f stack ih => exact done limit f stack w ih
  | case3 limit w f i is stack w' hi ih => exact miss limit f i is stack w hi ih
  | case4 limit w f i is stack w' p hi w'' hp ih => exact again limit f i is stack w p hi hp ih
  | case5 limit w f i is stack w' p hi w'' hp hnone ih =>
    exact leaf limit f i is stack w p hi hp hnone ih
  | case6 w f i is stack w' p hi w'' hp hinner => exact stop f i is stack w p hi hp hinner
  | case7 w f i is stack w' p hi w'' hp limit hinner ih =>
    exact enter limit f i is stack w p hi hp hinner ih

/-! ## What a walk has reached is rooted -/

/-- Whether the graph of a walk stands for the files that it has reached:
its edges lead to them, and all of them are rooted in it. -/
structure Walk.IsSound (known : List Path) (w : Walk) : Prop where
  nodup : w.graph.files.Nodup
  unknown : ∀ p ∈ w.graph.files, p ∉ known ∧ p.IsCanonical
  included : ∀ p ∈ w.graph.files, ∃ q, q ∈ w.graph.includers p
  reached : ∀ p q, q ∈ w.graph.includers p → q ∈ w.reached
  rooted : ∀ p ∈ w.reached, Rooted known w.graph p
  absolute : ∀ p ∈ w.reached, p.isAbsolute = true

namespace Walk.IsSound

theorem start : Walk.start.IsSound known where
  nodup := List.nodup_nil
  unknown _ hp := absurd hp List.not_mem_nil
  included _ hp := absurd hp List.not_mem_nil
  reached _ _ hq := absurd hq List.not_mem_nil
  rooted _ hp := absurd hp List.not_mem_nil
  absolute _ hp := absurd hp List.not_mem_nil

theorem miss (hw : w.IsSound known) (line : LogLine) : (w.miss line).IsSound known :=
  ⟨hw.nodup, hw.unknown, hw.included, hw.reached, hw.rooted, hw.absolute⟩

/-- An edge from a reached file keeps a walk sound. -/
theorem hit (hw : w.IsSound known) (line : LogLine) (hf : f ∈ w.reached) (hp : p.IsCanonical) :
    (w.hit line known p f).IsSound known where
  nodup := nodup_files_addEdge hw.nodup
  unknown r hr := by
    rcases mem_files_addEdge.1 hr with hr | ⟨rfl, -, hnew⟩
    · exact hw.unknown r hr
    · exact ⟨hnew, hp⟩
  included r hr := by
    rcases mem_files_addEdge.1 hr with hr | ⟨rfl, hne, hnew⟩
    · obtain ⟨q, hq⟩ := hw.included r hr
      exact ⟨q, mem_includers_addEdge.2 (.inl hq)⟩
    · exact ⟨f, mem_includers_addEdge.2 (.inr ⟨rfl, rfl, hne, hnew⟩)⟩
  reached r s hs := by
    rcases mem_includers_addEdge.1 hs with hs | ⟨-, rfl, -⟩
    · exact hw.reached r s hs
    · exact hf
  rooted r hr := (hw.rooted r hr).mono fun _ _ hs => mem_includers_addEdge.2 (.inl hs)
  absolute := hw.absolute

/-- **What a reached file includes is rooted** once the edge has been
recorded, or not recorded because there is no need to. -/
theorem rooted_hit (hw : w.IsSound known) (line : LogLine) (hf : f ∈ w.reached)
    (hp : p.IsCanonical) : Rooted known (w.hit line known p f).graph p := by
  have hrooted := (hw.hit line hf hp).rooted f hf
  by_cases hpf : p = f
  · subst hpf
    exact hrooted
  by_cases hknown : p ∈ known
  · exact .known hknown
  · exact .included (mem_includers_addEdge.2 (.inr ⟨rfl, rfl, hpf, hknown⟩)) hrooted

theorem reach (hw : w.IsSound known) (h : Host) (hp : p.isAbsolute = true)
    (hrooted : Rooted known w.graph p) : (w.reach h p).IsSound known where
  nodup := hw.nodup
  unknown := hw.unknown
  included := hw.included
  reached r s hs := List.mem_cons_of_mem _ (hw.reached r s hs)
  rooted := List.forall_mem_cons.2 ⟨hrooted, hw.rooted⟩
  absolute := List.forall_mem_cons.2 ⟨hp, hw.absolute⟩

/-- **One more include that is found** keeps a walk sound. -/
theorem hit_reach (hw : w.IsSound known) (h : Host) (line : LogLine) (hf : f ∈ w.reached)
    (hp : p.IsCanonical) : ((w.hit line known p f).reach h p).IsSound known :=
  (hw.hit line hf hp).reach h hp.1 (hw.rooted_hit line hf hp)

/-- **Walking the includes on a stack keeps a walk sound.** -/
theorem walkStack (hw : w.IsSound known) (hstack : ∀ e ∈ stack, e.1 ∈ w.reached)
    (hdirectories : ∀ d ∈ directories, d.isAbsolute = true) :
    (walkStack h known directories limit stack w).IsSound known := by
  -- what is found is canonical, as it is included by a reached file
  have hcanonical : ∀ {w : Walk} {f p : Path} {i : Include}, w.IsSound known → f ∈ w.reached →
      i.file? h f directories = some p → p.IsCanonical := fun hw hf hi =>
    Include.isCanonical_of_file? (hw.absolute _ hf) hdirectories hi
  induction limit, stack, w using walkStack_induction h known directories with
  | nil limit w => rwa [walkStack_nil]
  | done limit f stack w ih =>
    rw [walkStack_done]
    exact ih hw (List.forall_mem_cons.1 hstack).2
  | miss limit f i is stack w hi ih =>
    rw [walkStack_miss hi]
    exact ih (hw.miss _) (List.forall_mem_cons.2 (List.forall_mem_cons.1 hstack))
  | again limit f i is stack w p hi hp ih =>
    obtain ⟨hf, hstack⟩ := List.forall_mem_cons.1 hstack
    rw [walkStack_again hi hp]
    exact ih (hw.hit _ hf (hcanonical hw hf hi)) (List.forall_mem_cons.2 ⟨hf, hstack⟩)
  | leaf limit f i is stack w p hi hp hnone ih =>
    obtain ⟨hf, hstack⟩ := List.forall_mem_cons.1 hstack
    have hrest : ∀ e ∈ (f, is) :: stack, e.1 ∈ w.reached := List.forall_mem_cons.2 ⟨hf, hstack⟩
    rw [walkStack_leaf hi hp hnone]
    exact ih (hw.hit_reach h _ hf (hcanonical hw hf hi))
      fun e he => List.mem_cons_of_mem _ (hrest e he)
  | stop f i is stack w p hi hp hinner =>
    have hf := (List.forall_mem_cons.1 hstack).1
    rw [walkStack_stop hi hp hinner]
    exact hw.hit _ hf (hcanonical hw hf hi)
  | enter limit f i is stack w p hi hp hinner ih =>
    obtain ⟨hf, hstack⟩ := List.forall_mem_cons.1 hstack
    have hrest : ∀ e ∈ (f, is) :: stack, e.1 ∈ w.reached := List.forall_mem_cons.2 ⟨hf, hstack⟩
    rw [walkStack_enter hi hp hinner]
    exact ih (hw.hit_reach h _ hf (hcanonical hw hf hi))
      (List.forall_mem_cons.2
        ⟨List.mem_cons_self .., fun e he => List.mem_cons_of_mem _ (hrest e he)⟩)

theorem walkCommand {c : CompileCommand} (hw : w.IsSound known)
    (hc : c.directory.isAbsolute = true) (hmain : c.normalizedFile ∈ known) :
    (walkCommand h known w c).IsSound known := by
  by_cases hc' : c.normalizedFile ∈ w.reached
  · rwa [walkCommand_again hc']
  · rw [walkCommand_enter hc']
    refine IsSound.walkStack (hw.reach h ?_ (.known hmain)) ?_ ?_
    · exact (CompileCommand.isCanonical_normalizedFile hc).1
    · exact List.forall_mem_singleton.2 (List.mem_cons_self ..)
    · exact CompileCommand.isAbsolute_of_mem_searchDirectories hc

/-- **Whatever a walk reaches is rooted.** -/
theorem walkAll {cs : List CompileCommand} (hcs : ∀ c ∈ cs, c.directory.isAbsolute = true)
    (hknown : ∀ c ∈ cs, c.normalizedFile ∈ known) : (walkAll h known cs).IsSound known := by
  suffices hfrom : ∀ w : Walk, w.IsSound known →
      (cs.foldl (IncludeGraph.walkCommand h known) w).IsSound known from hfrom _ start
  induction cs with
  | nil => exact fun w hw => hw
  | cons c cs ih =>
    obtain ⟨hc, hcs⟩ := List.forall_mem_cons.1 hcs
    obtain ⟨hmain, hknown⟩ := List.forall_mem_cons.1 hknown
    exact fun w hw => ih hcs hknown _ (hw.walkCommand hc hmain)

/-- A file without a command is reached through an edge. -/
theorem mem_files (hw : w.IsSound known) (hp : p ∈ w.reached) (hnew : p ∉ known) :
    p ∈ w.graph.files := by
  cases hw.rooted p hp with
  | known hknown => exact absurd hknown hnew
  | included hq _ => exact mem_files_of_mem_includers hq

end Walk.IsSound

/-! ## A walk comes to its end -/

/-- The walk over a stack without a limit: from `w` to `w'`, one include
after the other. Every file that is reached is gone into, even if it
includes nothing. -/
inductive StackRun (h : Host) (known directories : List Path) :
    List (Path × List Include) → Walk → Walk → Prop
  | empty {w : Walk} : StackRun h known directories [] w w
  | pop {f : Path} {stack : List (Path × List Include)} {w w' : Walk} :
      StackRun h known directories stack w w' →
      StackRun h known directories ((f, []) :: stack) w w'
  | miss {f : Path} {i : Include} {is : List Include} {stack : List (Path × List Include)}
      {w w' : Walk} : i.file? h f directories = none →
      StackRun h known directories ((f, is) :: stack)
        (w.miss (i.searchLine h f directories)) w' →
      StackRun h known directories ((f, i :: is) :: stack) w w'
  | again {f p : Path} {i : Include} {is : List Include} {stack : List (Path × List Include)}
      {w w' : Walk} : i.file? h f directories = some p → p ∈ w.reached →
      StackRun h known directories ((f, is) :: stack)
        (w.hit (i.searchLine h f directories) known p f) w' →
      StackRun h known directories ((f, i :: is) :: stack) w w'
  | push {f p : Path} {i : Include} {is : List Include} {stack : List (Path × List Include)}
      {w w' : Walk} : i.file? h f directories = some p → p ∉ w.reached →
      StackRun h known directories ((p, h.includesOf p) :: (f, is) :: stack)
        ((w.hit (i.searchLine h f directories) known p f).reach h p) w' →
      StackRun h known directories ((f, i :: is) :: stack) w w'

/-- **The limit is never what ends a walk** if no more files can be gone
into than it allows. -/
theorem stackRun_of_room {F : Finset Path}
    (hF : ∀ p : Path, p.IsCanonical → ∀ content, h.read p = .ok content → p ∈ F)
    (hdirectories : ∀ d ∈ directories, d.isAbsolute = true)
    (hstack : ∀ e ∈ stack, e.1.isAbsolute = true)
    (hroom : (F.filter (· ∉ w.reached)).card ≤ limit) :
    StackRun h known directories stack w (walkStack h known directories limit stack w) := by
  -- a file that is gone into for the first time is one of the files of `F`
  have hmem : ∀ {w : Walk} {f p : Path} {i : Include}, f.isAbsolute = true →
      i.file? h f directories = some p → p ∉ w.reached → h.includesOf p ≠ [] →
      p ∈ F.filter (· ∉ w.reached) := fun hf hi hp hinner => by
    obtain ⟨content, hread⟩ := Host.exists_read_of_includesOf hinner
    exact Finset.mem_filter.2
      ⟨hF _ (Include.isCanonical_of_file? hf hdirectories hi) content hread, hp⟩
  induction limit, stack, w using walkStack_induction h known directories with
  | nil limit w =>
    rw [walkStack_nil]
    exact .empty
  | done limit f stack w ih =>
    rw [walkStack_done]
    exact .pop (ih (List.forall_mem_cons.1 hstack).2 hroom)
  | miss limit f i is stack w hi ih =>
    rw [walkStack_miss hi]
    exact .miss hi (ih (List.forall_mem_cons.2 (List.forall_mem_cons.1 hstack)) hroom)
  | again limit f i is stack w p hi hp ih =>
    rw [walkStack_again hi hp]
    exact .again hi hp (ih (List.forall_mem_cons.2 (List.forall_mem_cons.1 hstack)) hroom)
  | leaf limit f i is stack w p hi hp hnone ih =>
    rw [walkStack_leaf hi hp hnone]
    have hroom' := le_trans (Finset.card_le_card (filter_append_subset F [p] w.reached)) hroom
    refine .push hi hp ?_
    rw [hnone]
    exact .pop (ih (List.forall_mem_cons.2 (List.forall_mem_cons.1 hstack)) hroom')
  | stop f i is stack w p hi hp hinner =>
    -- the file is one of those that there is room for
    have hpos := Finset.card_pos.2 ⟨p, hmem (List.forall_mem_cons.1 hstack).1 hi hp hinner⟩
    omega
  | enter limit f i is stack w p hi hp hinner ih =>
    obtain ⟨hf, hstack⟩ := List.forall_mem_cons.1 hstack
    rw [walkStack_enter hi hp hinner]
    have hroom' : (F.filter (· ∉ p :: w.reached)).card ≤ limit := by
      have hcard := card_filter_append_lt (Finset.mem_filter.1 (hmem hf hi hp hinner)).1 hp
        (List.mem_singleton_self p)
      rw [List.singleton_append] at hcard
      omega
    have hp' := Include.isCanonical_of_file? hf hdirectories hi
    exact .push hi hp
      (ih (List.forall_mem_cons.2 ⟨hp'.1, List.forall_mem_cons.2 ⟨hf, hstack⟩⟩) hroom')

/-- **The walk from a main file comes to its end.** -/
theorem stackRun_main (w : Walk) (hdirectories : ∀ d ∈ directories, d.isAbsolute = true)
    (hmain : main.isAbsolute = true) :
    StackRun h known directories [(main, h.includesOf main)] (w.reach h main)
      (walkStack h known directories (reachLimit h) [(main, h.includesOf main)]
        (w.reach h main)) := by
  obtain ⟨F, hcard, hF⟩ := h.exists_readable
  exact stackRun_of_room hF hdirectories (List.forall_mem_singleton.2 hmain)
    (le_trans (Finset.card_filter_le F _) (Nat.le_of_lt hcard))

/-! ## A walk reaches all that is included -/

/-- Whether a walk has come to its end: from `w`, with what is on the
stack, all that is included has been reached in `w'`. -/
structure Walk.Completes (h : Host) (directories : List Path)
    (stack : List (Path × List Include)) (w w' : Walk) : Prop where
  kept : w.reached ⊆ w'.reached
  taken : ∀ e ∈ stack, ∀ i ∈ e.2, ∀ p, i.file? h e.1 directories = some p → p ∈ w'.reached
  entered : ∀ q ∈ w'.reached, q ∉ w.reached → h.includedBy directories q ⊆ w'.reached

/-- What has become of the first include is all that is left to show. -/
theorem Walk.Completes.cons {w₁ w' : Walk}
    (hw : Completes h directories ((f, is) :: stack) w₁ w')
    (hi : ∀ p, i.file? h f directories = some p → p ∈ w'.reached)
    (hkept : w.reached ⊆ w₁.reached)
    (hentered : ∀ q ∈ w₁.reached, q ∉ w.reached → h.includedBy directories q ⊆ w'.reached) :
    Completes h directories ((f, i :: is) :: stack) w w' where
  kept := List.Subset.trans hkept hw.kept
  taken := by
    obtain ⟨hfirst, hstack⟩ := List.forall_mem_cons.1 hw.taken
    exact List.forall_mem_cons.2 ⟨List.forall_mem_cons.2 ⟨hi, hfirst⟩, hstack⟩
  entered q hq hnew := by
    by_cases hq₁ : q ∈ w₁.reached
    · exact hentered q hq₁ hnew
    · exact hw.entered q hq hq₁

/-- **A walk that comes to its end** has reached all that is included. -/
theorem StackRun.completes {w' : Walk} (hrun : StackRun h known directories stack w w') :
    w.Completes h directories stack w' := by
  have hsame : ∀ {i : Include} {f p : Path} {w' : Walk}, i.file? h f directories = some p →
      p ∈ w'.reached → ∀ q, i.file? h f directories = some q → q ∈ w'.reached :=
    fun hi hp q hq => Option.some.inj (hi.symm.trans hq) ▸ hp
  induction hrun with
  | empty =>
    exact ⟨List.Subset.refl _, fun e he => absurd he List.not_mem_nil,
      fun q hq hnew => absurd hq hnew⟩
  | pop _ ih =>
    obtain ⟨hkept, htaken, hentered⟩ := ih
    exact ⟨hkept, List.forall_mem_cons.2 ⟨fun i hi => absurd hi List.not_mem_nil, htaken⟩,
      hentered⟩
  | miss hi _ ih =>
    refine ih.cons ?_ ?_ ?_
    · intro p hp
      cases hi.symm.trans hp
    · exact List.Subset.refl _
    · exact fun q hq hnew => absurd hq hnew
  | again hi hp _ ih =>
    exact ih.cons (hsame hi (ih.kept hp)) (List.Subset.refl _) fun q hq hnew => absurd hq hnew
  | push hi hp _ ih =>
    obtain ⟨hkept, htaken, hentered⟩ := ih
    obtain ⟨hinner, htaken⟩ := List.forall_mem_cons.1 htaken
    refine Walk.Completes.cons ⟨hkept, htaken, hentered⟩
      (hsame hi (hkept (List.mem_cons_self ..))) (List.subset_cons_self _ _) fun q hq hnew => ?_
    obtain rfl := (List.mem_cons.1 hq).resolve_right hnew
    intro r hr
    obtain ⟨j, hj, hr⟩ := Host.mem_includedBy.1 hr
    exact hinner j hj r hr

/-- **Includes lead to whatever a walk reaches.** -/
theorem leads_of_mem_walkStack
    (hstack : ∀ e ∈ stack, h.Leads directories main e.1 ∧ e.2 ⊆ h.includesOf e.1) :
    ∀ q ∈ (walkStack h known directories limit stack w).reached,
      q ∈ w.reached ∨ h.Leads directories main q := by
  -- what is on the stack leads on to what it includes
  have hstep : ∀ {f p : Path} {i : Include} {is : List Include} {stack},
      (∀ e ∈ (f, i :: is) :: stack, h.Leads directories main e.1 ∧ e.2 ⊆ h.includesOf e.1) →
      (∀ e ∈ (f, is) :: stack, h.Leads directories main e.1 ∧ e.2 ⊆ h.includesOf e.1) ∧
        (i.file? h f directories = some p → h.Leads directories main p) := by
    intro f p i is stack hstack
    obtain ⟨⟨hf, his⟩, hstack⟩ := List.forall_mem_cons.1 hstack
    exact ⟨List.forall_mem_cons.2 ⟨⟨hf, List.subset_of_cons_subset his⟩, hstack⟩,
      fun hi => .step hf (Host.mem_includedBy.2 ⟨i, his (List.mem_cons_self ..), hi⟩)⟩
  have hreach : ∀ {p q : Path} {w : Walk}, h.Leads directories main p →
      q ∈ (w.reach h p).reached ∨ h.Leads directories main q →
      q ∈ w.reached ∨ h.Leads directories main q := by
    rintro p q w hp (hq | hq)
    · rcases List.mem_cons.1 hq with rfl | hq
      · exact .inr hp
      · exact .inl hq
    · exact .inr hq
  induction limit, stack, w using walkStack_induction h known directories with
  | nil limit w =>
    rw [walkStack_nil]
    exact fun q hq => .inl hq
  | done limit f stack w ih =>
    rw [walkStack_done]
    exact ih (List.forall_mem_cons.1 hstack).2
  | miss limit f i is stack w hi ih =>
    rw [walkStack_miss hi]
    exact ih (hstep (p := f) hstack).1
  | again limit f i is stack w p hi hp ih =>
    rw [walkStack_again hi hp]
    exact ih (hstep (p := p) hstack).1
  | leaf limit f i is stack w p hi hp hnone ih =>
    obtain ⟨hrest, hlead⟩ := hstep hstack
    rw [walkStack_leaf hi hp hnone]
    exact fun q hq => hreach (hlead hi) (ih hrest q hq)
  | stop f i is stack w p hi hp hinner =>
    rw [walkStack_stop hi hp hinner]
    exact fun q hq => .inl hq
  | enter limit f i is stack w p hi hp hinner ih =>
    obtain ⟨hrest, hlead⟩ := hstep hstack
    rw [walkStack_enter hi hp hinner]
    exact fun q hq => hreach (hlead hi)
      (ih (List.forall_mem_cons.2 ⟨⟨hlead hi, List.Subset.refl _⟩, hrest⟩) q hq)

/-- **A walk from a main file** has reached what was reached before and the
main file, and its includes lead to all that is new, and on to reached
files. -/
theorem walkStack_main {w' : Walk} (hdirectories : ∀ d ∈ directories, d.isAbsolute = true)
    (hmain : main.isAbsolute = true)
    (hw' : w' = walkStack h known directories (reachLimit h) [(main, h.includesOf main)]
      (w.reach h main)) :
    w.reached ⊆ w'.reached ∧ main ∈ w'.reached ∧
      ∀ q ∈ w'.reached, q ∉ w.reached →
        h.Leads directories main q ∧ h.includedBy directories q ⊆ w'.reached := by
  have hdone : (w.reach h main).Completes h directories [(main, h.includesOf main)] w' :=
    hw' ▸ (stackRun_main w hdirectories hmain).completes
  have hleads : ∀ q ∈ w'.reached, q ∈ (w.reach h main).reached ∨ h.Leads directories main q :=
    hw' ▸ leads_of_mem_walkStack (List.forall_mem_singleton.2 ⟨.refl, List.Subset.refl _⟩)
  refine ⟨List.Subset.trans (List.subset_cons_self _ _) hdone.kept,
    hdone.kept (List.mem_cons_self ..), fun q hq hold => ?_⟩
  by_cases hqmain : q = main
  · -- the main file itself was on the stack
    subst hqmain
    refine ⟨.refl, fun r hr => ?_⟩
    obtain ⟨j, hj, hr⟩ := Host.mem_includedBy.1 hr
    exact hdone.taken _ (List.mem_singleton_self _) j hj r hr
  · have hnew : q ∉ (w.reach h main).reached := fun hq' =>
      (List.mem_cons.1 hq').elim hqmain hold
    exact ⟨(hleads q hq).resolve_left hnew, hdone.entered q hq hnew⟩

/-- Whether a walk has gone through commands: it has reached their main
files, and each file that it has reached was scanned for one of them that
leads to it, and all that it includes then has been reached. -/
structure Walk.IsClosed (h : Host) (cs : List CompileCommand) (w : Walk) : Prop where
  mains : ∀ c ∈ cs, c.normalizedFile ∈ w.reached
  closed : ∀ q ∈ w.reached, ∃ c ∈ cs, h.Leads c.searchDirectories c.normalizedFile q ∧
    h.includedBy c.searchDirectories q ⊆ w.reached

namespace Walk.IsClosed

variable {c : CompileCommand} {cs : List CompileCommand}

theorem start : Walk.start.IsClosed h [] where
  mains _ hc := absurd hc List.not_mem_nil
  closed _ hq := absurd hq List.not_mem_nil

/-- **Walking one more command** keeps a walk closed. -/
theorem walkCommand (known : List Path) (hw : w.IsClosed h cs)
    (hc : c.directory.isAbsolute = true) : (walkCommand h known w c).IsClosed h (cs ++ [c]) := by
  by_cases hmain : c.normalizedFile ∈ w.reached
  · rw [walkCommand_again hmain]
    refine ⟨List.forall_mem_append.2 ⟨hw.mains, List.forall_mem_singleton.2 hmain⟩,
      fun q hq => ?_⟩
    obtain ⟨d, hd, hq⟩ := hw.closed q hq
    exact ⟨d, List.mem_append_left _ hd, hq⟩
  rw [walkCommand_enter hmain]
  generalize hw' : IncludeGraph.walkStack h known c.searchDirectories (reachLimit h)
    [(c.normalizedFile, h.includesOf c.normalizedFile)] (w.reach h c.normalizedFile) = w'
  obtain ⟨hkept, hmain', hnew⟩ := walkStack_main
    (CompileCommand.isAbsolute_of_mem_searchDirectories hc)
    (CompileCommand.isCanonical_normalizedFile hc).1 hw'.symm
  refine ⟨List.forall_mem_append.2 ⟨fun d hd => hkept (hw.mains d hd),
    List.forall_mem_singleton.2 hmain'⟩, fun q hq => ?_⟩
  by_cases hold : q ∈ w.reached
  · obtain ⟨d, hd, hlead, hsub⟩ := hw.closed q hold
    exact ⟨d, List.mem_append_left _ hd, hlead, List.Subset.trans hsub hkept⟩
  · exact ⟨c, List.mem_append_right _ (List.mem_singleton_self c), hnew q hq hold⟩

/-- **Whatever a reached file includes is reached.** -/
theorem walkAll (known : List Path) (hcs : ∀ c ∈ cs, c.directory.isAbsolute = true) :
    (walkAll h known cs).IsClosed h cs := by
  suffices hfrom : ∀ (done : List CompileCommand) (w : Walk), w.IsClosed h done →
      (cs.foldl (IncludeGraph.walkCommand h known) w).IsClosed h (done ++ cs) from
    hfrom [] _ start
  induction cs with
  | nil => exact fun done w hw => (List.append_nil done).symm ▸ hw
  | cons c cs ih =>
    obtain ⟨hc, hcs⟩ := List.forall_mem_cons.1 hcs
    intro done w hw
    have hrest := ih hcs (done ++ [c]) _ (hw.walkCommand known hc)
    rwa [List.append_assoc, List.singleton_append] at hrest

/-- The includes of a command whose main file was scanned for it have been
reached. -/
theorem reached_of_singleton (hw : w.IsClosed h [c]) : c.includedFiles h ⊆ w.reached := by
  obtain ⟨d, hd, -, hsub⟩ := hw.closed _ (hw.mains c (List.mem_singleton_self c))
  obtain rfl := List.mem_singleton.1 hd
  exact hsub

end Walk.IsClosed

end IncludeGraph

end CompileCommands
