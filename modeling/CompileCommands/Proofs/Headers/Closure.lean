import CompileCommands.Proofs.FileTree.Reach
import CompileCommands.Proofs.Headers.Inference
/-!
# The include closure

A run ends only when nothing new is included: a round that is followed by
another has found a header, and unless one of its headers can be read as
a file the next round finds nothing. Files can be read under fewer
canonical paths than a run may have rounds, so the limit is never what
ends it (`closed_found`).
-/

namespace CompileCommands

variable {h : Host} {p : Path}

/-- A file that cannot be read includes nothing. -/
theorem CompileCommand.includedFiles_of_unreadable {c : CompileCommand}
    (hc : ∀ content, h.read c.normalizedFile ≠ .ok content) : c.includedFiles h = [] := by
  have hnone : h.includesOf c.normalizedFile = [] := by
    by_contra hne
    obtain ⟨content, hread⟩ := Host.exists_read_of_includesOf hne
    exact hc content hread
  rw [includedFiles, hnone]
  rfl

namespace Inference

variable {known : List Path} {frontier : List Source} {s : Source} {F : Finset Path}

theorem AbsoluteSources.next (hstart : AbsoluteSources frontier) :
    AbsoluteSources ((round h known frontier).next h) := by
  intro s hs
  obtain ⟨f, hf, rfl⟩ := mem_next.1 hs
  exact hstart f.lender (lender_of_mem_round hf).1

/-- What the next round scans is what the round has found. -/
theorem normalizedFile_of_mem_next (hstart : AbsoluteSources frontier)
    (hs : s ∈ (round h known frontier).next h) :
    s.command.normalizedFile ∈ (round h known frontier).headers ∧
      s.command.normalizedFile ∉ known ∧ s.command.normalizedFile.IsCanonical := by
  obtain ⟨f, hf, rfl⟩ := mem_next.1 hs
  obtain ⟨hlender, hincluded, hnew⟩ := lender_of_mem_round hf
  have hcanonical := CompileCommand.isCanonical_of_mem_includedFiles (hstart _ hlender) hincluded
  have hfile : (f.source h).command.normalizedFile = f.header :=
    CompileCommand.normalizedFile_lentTo (hstart _ hlender) hcanonical
  rw [hfile]
  exact ⟨List.mem_map.2 ⟨f, hf, rfl⟩, hnew, hcanonical⟩

/-- Whether there is a round left for every file of `F` that is not known,
unless the frontier includes nothing at all. -/
def HasRoom (h : Host) (F : Finset Path) (n : Nat) (known : List Path)
    (frontier : List Source) : Prop :=
  (F.filter (· ∉ known)).card < n ∨ ∀ s ∈ frontier, s.command.includedFiles h = []

/-- **A round that finds a readable header has used one of the files up**,
and after one that finds none the next frontier includes nothing. -/
theorem HasRoom.next {n : Nat}
    (hF : ∀ p : Path, p.IsCanonical → ∀ content, h.read p = .ok content → p ∈ F)
    (hstart : AbsoluteSources frontier) (hroom : HasRoom h F (n + 1) known frontier) :
    HasRoom h F n ((round h known frontier).headers ++ known)
      ((round h known frontier).next h) := by
  rcases hroom with hroom | hnone
  · by_cases hreadable : ∃ s ∈ (round h known frontier).next h, ∃ content,
        h.read s.command.normalizedFile = .ok content
    · -- the header is a file of `F`, and is known from now on
      obtain ⟨s, hs, content, hread⟩ := hreadable
      obtain ⟨hfound, hnew, hcanonical⟩ := normalizedFile_of_mem_next hstart hs
      have hcard := card_filter_append_lt (hF _ hcanonical content hread) hnew hfound
      exact .inl (by omega)
    · refine .inr fun s hs => CompileCommand.includedFiles_of_unreadable fun content hread => ?_
      exact hreadable ⟨s, hs, content, hread⟩
  · refine .inr fun s hs => ?_
    obtain ⟨f, hf, -⟩ := mem_next.1 hs
    obtain ⟨hlender, hincluded, -⟩ := lender_of_mem_round hf
    rw [hnone _ hlender] at hincluded
    exact absurd hincluded List.not_mem_nil

/-- **A run with room misses nothing.** Whatever is scanned includes only
what was known or has been found. -/
theorem closed_found (hF : ∀ p : Path, p.IsCanonical → ∀ content, h.read p = .ok content → p ∈ F)
    (n : Nat) (hstart : AbsoluteSources frontier) (hroom : HasRoom h F n known frontier) :
    ∀ s, s ∈ frontier ∨ s ∈ (found (roundsUpTo h n known frontier)).map (Finding.source h) →
      ∀ p ∈ s.command.includedFiles h,
        p ∈ known ∨ p ∈ (found (roundsUpTo h n known frontier)).map Finding.header := by
  induction n generalizing known frontier with
  | zero =>
    -- no round is left, so what room there is means that nothing is included
    intro s hs p hp
    rcases hroom with hroom | hroom
    · exact absurd hroom (Nat.not_lt_zero _)
    · rcases hs with hs | hs
      · rw [hroom s hs] at hp
        exact absurd hp List.not_mem_nil
      · exact absurd hs List.not_mem_nil
  | succ n ih =>
    have hrest := ih hstart.next (hroom.next hF hstart)
    rw [found_roundsUpTo_succ]
    simp only [List.map_append, List.mem_append] at hrest ⊢
    intro s hs p hp
    have hlater : s ∈ (round h known frontier).next h ∨
        s ∈ (found (roundsUpTo h n ((round h known frontier).headers ++ known)
          ((round h known frontier).next h))).map (Finding.source h) →
        p ∈ known ∨ p ∈ (round h known frontier).findings.map Finding.header ∨
          p ∈ (found (roundsUpTo h n ((round h known frontier).headers ++ known)
            ((round h known frontier).next h))).map Finding.header := fun hs => by
      rcases hrest s hs p hp with (hp | hp) | hp
      · exact .inr (.inl hp)
      · exact .inl hp
      · exact .inr (.inr hp)
    rcases hs with hs | hs | hs
    · by_cases hknown : p ∈ known
      · exact .inl hknown
      · exact .inr (.inl (mem_headers_round.2 ⟨hknown, s, hs, hp⟩))
    · obtain ⟨f, hf, hsource⟩ := List.mem_map.1 hs
      exact hlater (.inl (mem_next.2 ⟨f, hf, hsource⟩))
    · exact hlater (.inr hs)

/-- **The limit on rounds is never what ends a run.** -/
theorem closed_rounds (hstart : AbsoluteSources frontier) :
    ∀ s, s ∈ frontier ∨ s ∈ (found (rounds h known frontier)).map (Finding.source h) →
      ∀ p ∈ s.command.includedFiles h,
        p ∈ known ∨ p ∈ (found (rounds h known frontier)).map Finding.header := by
  obtain ⟨F, hcard, hF⟩ := h.exists_readable
  exact closed_found hF (roundLimit h) hstart
    (.inl (lt_of_le_of_lt (Finset.card_filter_le F _) hcard))

/-! ## What is given for a directory -/

/-- An element of a list that was sifted and renamed, and what stood
before it. -/
theorem exists_split_of_filter_map {α β : Type} {keep : α → Bool} {g : α → β} {xs : List α}
    {y : β} {before after : List β} (hxs : (xs.filter keep).map g = before ++ y :: after) :
    ∃ as x bs, xs = as ++ x :: bs ∧ keep x = true ∧ g x = y ∧
      before = (as.filter keep).map g := by
  obtain ⟨ls, rs, hsplit, rfl, hrs⟩ := List.map_eq_append_iff.1 hxs
  obtain ⟨x, rs', rfl, rfl, -⟩ := List.map_eq_cons_iff.1 hrs
  obtain ⟨as, bs, rfl, rfl, hbs⟩ := List.filter_eq_append_iff.1 hsplit
  obtain ⟨cs, ds, rfl, hcs, hx, -⟩ := List.filter_eq_cons_iff.1 hbs
  refine ⟨as ++ cs, x, ds, by rw [List.append_assoc], hx, rfl, ?_⟩
  rw [List.filter_append, List.filter_eq_nil_iff.2 (fun c hc => hcs c hc), List.append_nil]

/-- **Every inferred command was lent in its directory**, by a source of
the start or by a command inferred before it. -/
theorem lender_of_inferredFor {directory : Nat} {before after : List CompileCommand}
    {c : CompileCommand}
    (hout : inferredFor h (rounds h known frontier) directory = before ++ c :: after) :
    ∃ s p, (⟨directory, s⟩ ∈ frontier ∨ s ∈ before) ∧ p ∈ s.includedFiles h ∧
      c = s.lentTo h p := by
  rw [inferredFor_eq] at hout
  obtain ⟨as, f, bs, hfound, hdir, rfl, rfl⟩ := exists_split_of_filter_map hout
  have hdir : f.lender.directory = directory := of_decide_eq_true hdir
  obtain ⟨hlender, hincluded⟩ := lender_of_found hfound
  refine ⟨f.lender.command, f.header, ?_, hincluded, rfl⟩
  rcases hlender with hlender | hlender
  · exact .inl (hdir ▸ hlender)
  · obtain ⟨g, hg, hsource⟩ := List.mem_map.1 hlender
    have hgdir : g.lender.directory = directory := by
      rw [← hdir, ← hsource]
      rfl
    refine .inr (List.mem_map.2 ⟨g, List.mem_filter.2 ⟨hg, decide_eq_true hgdir⟩, ?_⟩)
    rw [hsource]

/-- Sources that are numbered below `n` lend to sources that are. -/
theorem directory_lt_of_found {n k : Nat} (hstart : ∀ s ∈ frontier, s.directory < n) {f : Finding}
    (hf : f ∈ found (roundsUpTo h k known frontier)) : f.lender.directory < n :=
  (found_induction (P := fun s => s.directory < n) hstart k (fun _ _ hf _ => hf) f hf).1

/-- What is given for the first `n` directories are the commands of the
findings that were lent there. -/
theorem mem_inferred_iff {rs : List Round} {n : Nat} {c : CompileCommand} :
    c ∈ ((List.range n).map (inferredFor h rs)).flatten ↔
      ∃ f ∈ found rs, f.lender.directory < n ∧ (f.source h).command = c := by
  rw [← List.flatMap_def, List.mem_flatMap]
  simp only [inferredFor_eq, List.mem_map, List.mem_filter, List.mem_range, decide_eq_true_eq]
  constructor
  · rintro ⟨i, hi, f, ⟨hf, rfl⟩, rfl⟩
    exact ⟨f, hf, hi, rfl⟩
  · rintro ⟨f, hf, hi, rfl⟩
    exact ⟨_, hi, f, ⟨hf, rfl⟩, rfl⟩

end Inference

/-! ## The closure -/

variable {stack : List Layer} {out : List (List CompileCommand)} {n : Nat}

namespace LayeredDatabase

/-- Whether `c` is a command of the layers or one of those inferred for
them. -/
def Covers (h : Host) (stack : List Layer) (out : List (List CompileCommand))
    (c : CompileCommand) : Prop :=
  (∃ i, Holds h stack i c) ∨ c ∈ out.flatten

/-- Layers of one length hold commands for the directories that are
given commands. -/
theorem directory_lt_of_holds (hlength : ∀ l ∈ stack, l.length = n) {i : Nat}
    {c : CompileCommand} (hc : Holds h stack i c) :
    i < ((contents h stack).head?.getD []).length := by
  obtain ⟨l, hl, d, cs, hd, -⟩ := hc
  have hlt : i < l.length := (List.getElem?_eq_some_iff.1 hd).1
  cases stack with
  | nil => exact absurd hl List.not_mem_nil
  | cons base upper =>
    have hbase := hlength base (List.mem_cons_self ..)
    have hupper := hlength l hl
    simp only [contents, List.map_cons, List.head?_cons, Option.getD_some, List.length_map]
    omega

/-- **What is covered includes only what is covered.** -/
theorem covers_includedFiles (hdir : IsAbsolute h stack) (hlength : ∀ l ∈ stack, l.length = n)
    (hout : (inferHeaders h (contents h stack)).value = .ok out) {c : CompileCommand}
    (hc : Covers h stack out c) (hp : p ∈ c.includedFiles h) :
    ∃ d, Covers h stack out d ∧ d.normalizedFile = p := by
  obtain ⟨css, hread, hout⟩ := inferHeaders_eq_ok.1 hout
  have hstart := hdir.sources hread
  have hsource : ∃ s, s.command = c ∧ (s ∈ css.flatMap (Inference.sourcesOf 0) ∨
      s ∈ (Inference.found (Inference.run h css)).map (Inference.Finding.source h)) := by
    rcases hc with ⟨i, hc⟩ | hc
    · exact ⟨⟨i, c⟩, rfl, .inl ((mem_sources hread).2 hc)⟩
    · rw [hout, Inference.mem_inferred_iff] at hc
      obtain ⟨f, hf, -, rfl⟩ := hc
      exact ⟨f.source h, rfl, .inr (List.mem_map.2 ⟨f, hf, rfl⟩)⟩
  obtain ⟨s, rfl, hs⟩ := hsource
  rcases Inference.closed_rounds hstart s hs p hp with hknown | hfound
  · obtain ⟨i, d, hd, hfile⟩ := (mem_known hread).1 hknown
    exact ⟨d, .inl ⟨i, hd⟩, hfile⟩
  · -- a finding stands in the result, as all lenders are numbered below its length
    obtain ⟨f, hf, rfl⟩ := List.mem_map.1 hfound
    refine ⟨(f.source h).command, .inr ?_, Inference.normalizedFile_of_found hstart hf⟩
    have hlt := Inference.directory_lt_of_found
      (fun s hs => directory_lt_of_holds hlength ((mem_sources hread).1 hs)) hf
    rw [hout]
    exact Inference.mem_inferred_iff.2 ⟨f, hf, hlt, rfl⟩

/-- **What is inferred was lent by what is covered**, in its own
directory and by something that stands before it. -/
theorem lender_of_inferred (hout : (inferHeaders h (contents h stack)).value = .ok out) {i : Nat}
    {before after : List CompileCommand} {c : CompileCommand}
    (hi : out[i]? = some (before ++ c :: after)) :
    ∃ s p, (Holds h stack i s ∨ s ∈ before) ∧ p ∈ s.includedFiles h ∧ c = s.lentTo h p := by
  obtain ⟨css, hread, rfl⟩ := inferHeaders_eq_ok.1 hout
  rw [List.getElem?_map, Option.map_eq_some_iff] at hi
  obtain ⟨k, hk, hinferred⟩ := hi
  obtain ⟨hlt, rfl⟩ := List.getElem?_eq_some_iff.1 hk
  rw [List.getElem_range] at hinferred
  obtain ⟨s, p, hs, hincluded, hlent⟩ := Inference.lender_of_inferredFor hinferred
  exact ⟨s, p, hs.imp_left (mem_sources hread).1, hincluded, hlent⟩

/-- The databases in memory that hold what was inferred cover nothing
more. -/
theorem holds_append_memory {i : Nat} {c : CompileCommand} :
    Holds h (stack ++ [out.map .memory]) i c ↔
      Holds h stack i c ∨ ∃ cs, out[i]? = some cs ∧ c ∈ cs := by
  constructor
  · rintro ⟨l, hl, d, cs, hd, hcs, hc⟩
    rcases List.mem_append.1 hl with hl | hl
    · exact .inl ⟨l, hl, d, cs, hd, hcs, hc⟩
    · rw [List.mem_singleton.1 hl, List.getElem?_map, Option.map_eq_some_iff] at hd
      obtain ⟨held, hheld, rfl⟩ := hd
      obtain rfl := Except.ok.inj hcs
      exact .inr ⟨held, hheld, hc⟩
  · rintro (⟨l, hl, d, cs, hd, hcs, hc⟩ | ⟨cs, hcs, hc⟩)
    · exact ⟨l, List.mem_append_left _ hl, d, cs, hd, hcs, hc⟩
    · refine ⟨out.map .memory, List.mem_append_right _ (List.mem_singleton_self _), .memory cs, cs,
        ?_, rfl, hc⟩
      rw [List.getElem?_map, hcs]
      rfl

/-- **Inferring once more gives nothing**, once what was inferred is a
layer of its own. -/
theorem inferHeaders_append_inferred (hdir : IsAbsolute h stack)
    (hlength : ∀ l ∈ stack, l.length = n)
    (hout : (inferHeaders h (contents h stack)).value = .ok out) :
    (inferHeaders h (contents h (stack ++ [out.map .memory]))).value =
      .ok (out.map fun _ => []) := by
  obtain ⟨css, hread, hinferred⟩ := inferHeaders_eq_ok.1 hout
  have hread' : contents h (stack ++ [out.map .memory]) =
      (css ++ [out]).map (List.map .ok) := by
    have hmemory : (out.map Database.memory).map (fun d : Database => d.commands h) =
        out.map .ok := by
      rw [List.map_map]
      rfl
    rw [contents, List.map_append, List.map_append, List.map_singleton, List.map_singleton,
      hmemory, ← hread]
    rfl
  have hcount : ((contents h (stack ++ [out.map .memory])).head?.getD []).length = out.length := by
    cases stack with
    | nil => simp [contents]
    | cons base upper => simp [contents, hinferred]
  -- all that the new run scans is covered, so all that it comes upon is known
  have hnone : Inference.found (Inference.run h (css ++ [out])) = [] := by
    refine Inference.found_of_closed _ fun s hs p hp => (mem_known hread').2 ?_
    have hs : Covers h stack out s.command := by
      rcases holds_append_memory.1 ((mem_sources hread').1 hs) with hs | ⟨cs, hcs, hs⟩
      · exact .inl ⟨_, hs⟩
      · exact .inr (List.mem_flatten.2 ⟨cs, List.mem_of_getElem? hcs, hs⟩)
    obtain ⟨d, hd, hfile⟩ := covers_includedFiles hdir hlength hout hs hp
    rcases hd with ⟨i, hd⟩ | hd
    · exact ⟨i, d, holds_append_memory.2 (.inl hd), hfile⟩
    · obtain ⟨cs, hcs, hd⟩ := List.mem_flatten.1 hd
      obtain ⟨i, hi⟩ := List.mem_iff_getElem?.1 hcs
      exact ⟨i, d, holds_append_memory.2 (.inr ⟨cs, hi, hd⟩), hfile⟩
  have hempty : Inference.inferredFor h (Inference.run h (css ++ [out])) = fun _ => [] := by
    funext i
    rw [Inference.inferredFor_eq, hnone]
    rfl
  refine inferHeaders_eq_ok.2 ⟨css ++ [out], hread', ?_⟩
  rw [hcount, hempty, List.map_const', List.map_const', List.length_range]

/-- **The inferred commands are the include closure** of the layers.
Whatever the file of a command of the layers or of the result includes
has a command among them; every command of the result was lent to a file
that its lender includes, the lender standing in a layer or before it in
the result of the same directory; and with the result as one more layer
nothing is left to infer. -/
theorem inferHeaders_closure (hdir : IsAbsolute h stack) (hlength : ∀ l ∈ stack, l.length = n)
    (hout : (inferHeaders h (contents h stack)).value = .ok out) :
    (∀ c, Covers h stack out c → ∀ p ∈ c.includedFiles h,
      ∃ d, Covers h stack out d ∧ d.normalizedFile = p) ∧
    (∀ i before c after, out[i]? = some (before ++ c :: after) →
      ∃ s p, (Holds h stack i s ∨ s ∈ before) ∧ p ∈ s.includedFiles h ∧ c = s.lentTo h p) ∧
    (inferHeaders h (contents h (stack ++ [out.map .memory]))).value =
      .ok (out.map fun _ => []) :=
  ⟨fun _ hc _ hp => covers_includedFiles hdir hlength hout hc hp,
    fun _ _ _ _ hi => lender_of_inferred hout hi,
    inferHeaders_append_inferred hdir hlength hout⟩

theorem inferHeaders_closure_cycle :
    IsAbsolute Cycle.host Cycle.stack ∧ (∀ l ∈ Cycle.stack, l.length = 1) ∧
    (inferHeaders Cycle.host (contents Cycle.host Cycle.stack)).value = .ok [[Cycle.inferred]] ∧
    (∀ c, Covers Cycle.host Cycle.stack [[Cycle.inferred]] c → ∀ p ∈ c.includedFiles Cycle.host,
      ∃ d, Covers Cycle.host Cycle.stack [[Cycle.inferred]] d ∧ d.normalizedFile = p) ∧
    (∀ i before c after, [[Cycle.inferred]][i]? = some (before ++ c :: after) →
      ∃ s p, (Holds Cycle.host Cycle.stack i s ∨ s ∈ before) ∧
        p ∈ s.includedFiles Cycle.host ∧ c = s.lentTo Cycle.host p) ∧
    (inferHeaders Cycle.host
      (contents Cycle.host (Cycle.stack ++ [[.memory [Cycle.inferred]]]))).value = .ok [[]] :=
  ⟨Cycle.isAbsolute, by decide, Cycle.inferHeaders_eq,
    inferHeaders_closure Cycle.isAbsolute (n := 1) (by decide) Cycle.inferHeaders_eq⟩

end LayeredDatabase

end CompileCommands
