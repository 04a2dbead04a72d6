import CompileCommands.Proofs.FirstOfEach
import CompileCommands.Proofs.Headers.Inference
import CompileCommands.Proofs.Headers.Walk
/-!
# The walk as a recursion

Without its stack the walk is a recursion: go through the includes of a
file in order, and go into an included file the first time that it is
reached (`DepthFirst`). What is on the stack is what the recursion still
has to do, innermost file first, so a walk that comes to its end has done
it all (`StackRun.depthFirst`). The graph of the walk is the graph of the
edges that the recursion meets, in the order in which it meets them
(`walkAll_isDepthFirst`).
-/

namespace CompileCommands

namespace IncludeGraph

variable {h : Host} {known directories : List Path} {p q r f : Path} {g g' : IncludeGraph}

/-! ## The graph of a list of edges -/

/-- The edges that a graph records: none from a file to itself, and none
to a file that has a command. An edge is an included file and a file that
includes it. -/
def recorded (known : List Path) (es : List (Path × Path)) : List (Path × Path) :=
  es.filter fun e => e.1 ≠ e.2 ∧ e.1 ∉ known

/-- The files that include `p`, in the order in which they are first met. -/
def includersAmong (es : List (Path × Path)) (p : Path) : List Path :=
  firstOfEach id [] ((es.filter fun e => e.1 = p).map Prod.snd)

/-- The graph of the edges that are to be recorded: the included files in
the order in which they are first met, and so are the includers of
each. -/
def ofEdges (known : List Path) (es : List (Path × Path)) : IncludeGraph :=
  (firstOfEach id [] ((recorded known es).map Prod.fst)).map fun p =>
    (p, includersAmong (recorded known es) p)

/-- A graph is its files and their includers. -/
theorem eq_map_files (hg : g.files.Nodup) : g = g.files.map fun p => (p, g.includers p) := by
  induction g with
  | nil => rfl
  | cons e g ih =>
    obtain ⟨p, is⟩ := e
    obtain ⟨hp, hg⟩ := List.nodup_cons.1 hg
    have hrest : ((files g).map fun q => (q, includers ((p, is) :: g) q)) =
        (files g).map fun q => (q, includers g q) := by
      refine List.map_congr_left fun q hq => ?_
      rw [includers_cons, if_neg fun heq : p = q => hp (heq ▸ hq)]
    have hfirst : includers ((p, is) :: g) p = is := by rw [includers_cons, if_pos rfl]
    have hfiles : files ((p, is) :: g) = p :: files g := rfl
    rw [hfiles, List.map_cons, hrest, hfirst, ← ih hg]

theorem ext_files (hg : g.files.Nodup) (hfiles : g.files = g'.files)
    (hincluders : ∀ p, g.includers p = g'.includers p) : g = g' := by
  calc g = g.files.map fun p => (p, g.includers p) := eq_map_files hg
    _ = g'.files.map fun p => (p, g'.includers p) := by simp only [hfiles, hincluders]
    _ = g' := (eq_map_files (hfiles ▸ hg)).symm

theorem files_ofEdges (known : List Path) (es : List (Path × Path)) :
    (ofEdges known es).files = firstOfEach id [] ((recorded known es).map Prod.fst) := by
  rw [files, ofEdges, List.map_map]
  exact List.map_id _

theorem nodup_files_ofEdges (known : List Path) (es : List (Path × Path)) :
    (ofEdges known es).files.Nodup := by
  rw [files_ofEdges]
  exact nodup_firstOfEach_id ..

theorem includers_map (is : Path → List Path) (ps : List Path) (p : Path) :
    includers (ps.map fun q => (q, is q)) p = if p ∈ ps then is p else [] := by
  induction ps with
  | nil => rfl
  | cons q ps ih =>
    rw [List.map_cons, includers_cons, ih]
    by_cases hq : q = p
    · rw [if_pos hq, if_pos (hq ▸ List.mem_cons_self ..), hq]
    · have hiff : p ∈ q :: ps ↔ p ∈ ps := List.mem_cons.trans (or_iff_right (Ne.symm hq))
      simp only [if_neg hq, hiff]

theorem includers_ofEdges (known : List Path) (es : List (Path × Path)) (p : Path) :
    (ofEdges known es).includers p = includersAmong (recorded known es) p := by
  rw [ofEdges, includers_map]
  split
  · rfl
  · rename_i hp
    have hnone : (recorded known es).filter (fun e => e.1 = p) = [] := by
      refine List.filter_eq_nil_iff.2 fun e he hep => hp ?_
      refine mem_firstOfEach.2 ⟨List.not_mem_nil, List.mem_map.2 ⟨e, he, of_decide_eq_true hep⟩⟩
    rw [includersAmong, hnone]
    rfl

theorem mem_includers_ofEdges {es : List (Path × Path)} :
    f ∈ (ofEdges known es).includers p ↔ (p, f) ∈ es ∧ p ≠ f ∧ p ∉ known := by
  rw [includers_ofEdges, includersAmong, mem_firstOfEach, and_iff_right List.not_mem_nil]
  simp only [recorded, List.mem_map, List.mem_filter, decide_eq_true_eq]
  constructor
  · rintro ⟨⟨p', f'⟩, ⟨he, rfl⟩, rfl⟩
    exact he
  · intro he
    exact ⟨(p, f), ⟨he, rfl⟩, rfl⟩

theorem nodup_includers_ofEdges (known : List Path) (es : List (Path × Path)) (p : Path) :
    ((ofEdges known es).includers p).Nodup := by
  rw [includers_ofEdges, includersAmong]
  exact nodup_firstOfEach_id ..

theorem includersAmong_concat (es : List (Path × Path)) (p f r : Path) :
    includersAmong (es ++ [(p, f)]) r =
      if p = r then
        (if f ∈ includersAmong es p then includersAmong es p else includersAmong es p ++ [f])
      else includersAmong es r := by
  rw [includersAmong, List.filter_append, List.map_append]
  by_cases hp : p = r
  · subst hp
    rw [if_pos rfl, List.filter_cons_of_pos (by simp), List.filter_nil, List.map_singleton,
      firstOfEach_nil_concat, includersAmong]
  · rw [if_neg hp, List.filter_cons_of_neg (by simpa using hp), List.filter_nil, List.map_nil,
      List.append_nil]
    rfl

/-- **One more edge at the end of the list is one more edge of the
graph.** -/
theorem ofEdges_concat (known : List Path) (es : List (Path × Path)) (p f : Path) :
    ofEdges known (es ++ [(p, f)]) = (ofEdges known es).addEdge known p f := by
  have hsplit : recorded known (es ++ [(p, f)]) = recorded known es ++ recorded known [(p, f)] :=
    List.filter_append ..
  by_cases hskip : p = f ∨ p ∈ known
  · have hnone : recorded known [(p, f)] = [] := by
      refine List.filter_cons_of_neg ?_
      simpa [Classical.or_iff_not_imp_left] using hskip
    rw [addEdge, if_pos hskip, ofEdges, hsplit, hnone, List.append_nil]
    rfl
  · have hkeep : recorded known [(p, f)] = [(p, f)] :=
      List.filter_cons_of_pos (decide_eq_true (not_or.1 hskip))
    rw [hkeep] at hsplit
    rw [addEdge, if_neg hskip]
    refine ext_files (nodup_files_ofEdges ..) ?_ fun r => ?_
    · rw [files_insert, files_ofEdges, files_ofEdges, hsplit, List.map_append, List.map_singleton,
        firstOfEach_nil_concat]
    · rw [includers_insert, includers_ofEdges, includers_ofEdges, includers_ofEdges, hsplit,
        includersAmong_concat]

/-! ## The recursion -/

/-- What a recursion through the includes has come to: the files scanned,
each with the directories that its includes are looked for in, and the
edges met. -/
structure Record where
  scans : List (Path × List Path)
  edges : List (Path × Path)

namespace Record

/-- The record before anything has been scanned. -/
def start : Record := ⟨[], []⟩

/-- The files that have been scanned. -/
def scanned (r : Record) : List Path := r.scans.map Prod.fst

def scan (r : Record) (p : Path) (directories : List Path) : Record :=
  { r with scans := r.scans ++ [(p, directories)] }

def edge (r : Record) (p f : Path) : Record := { r with edges := r.edges ++ [(p, f)] }

theorem scanned_scan (r : Record) (p : Path) (directories : List Path) :
    (r.scan p directories).scanned = r.scanned ++ [p] :=
  List.map_append

theorem nodup_scan {r : Record} (hr : r.scanned.Nodup) (hp : p ∉ r.scanned) :
    (r.scan p directories).scanned.Nodup := by
  rw [scanned_scan, ← List.concat_eq_append]
  exact hr.concat hp

end Record

variable {i : Include} {is : List Include} {stack : List (Path × List Include)}
variable {w w' : Walk} {t t' t₁ : Record} {c : CompileCommand} {cs : List CompileCommand}

/-- The depth-first recursion through the includes `is` of the file `f`,
from the record `t` to the record `t'`. An include that is found is an
edge, and the file found is scanned and gone into if it has not been
before. -/
inductive DepthFirst (h : Host) (directories : List Path) :
    Path → List Include → Record → Record → Prop
  | done {f : Path} {t : Record} : DepthFirst h directories f [] t t
  | miss {f : Path} {i : Include} {is : List Include} {t t' : Record} :
      i.file? h f directories = none → DepthFirst h directories f is t t' →
      DepthFirst h directories f (i :: is) t t'
  | again {f p : Path} {i : Include} {is : List Include} {t t' : Record} :
      i.file? h f directories = some p → p ∈ t.scanned →
      DepthFirst h directories f is (t.edge p f) t' → DepthFirst h directories f (i :: is) t t'
  | enter {f p : Path} {i : Include} {is : List Include} {t t₁ t' : Record} :
      i.file? h f directories = some p → p ∉ t.scanned →
      DepthFirst h directories p (h.includesOf p) ((t.edge p f).scan p directories) t₁ →
      DepthFirst h directories f is t₁ t' → DepthFirst h directories f (i :: is) t t'

/-- The recursion from the main files of several commands, each with the
search directories of its command. -/
inductive DepthFirstAll (h : Host) : List CompileCommand → Record → Record → Prop
  | done {t : Record} : DepthFirstAll h [] t t
  | again {c : CompileCommand} {cs : List CompileCommand} {t t' : Record} :
      c.normalizedFile ∈ t.scanned → DepthFirstAll h cs t t' → DepthFirstAll h (c :: cs) t t'
  | enter {c : CompileCommand} {cs : List CompileCommand} {t t₁ t' : Record} :
      c.normalizedFile ∉ t.scanned →
      DepthFirst h c.searchDirectories c.normalizedFile (h.includesOf c.normalizedFile)
        (t.scan c.normalizedFile c.searchDirectories) t₁ →
      DepthFirstAll h cs t₁ t' → DepthFirstAll h (c :: cs) t t'

/-- A recursion has one outcome. -/
theorem DepthFirst.unique {a b : Record} (ha : DepthFirst h directories f is t a)
    (hb : DepthFirst h directories f is t b) : b = a := by
  induction ha generalizing b with
  | done =>
    cases hb
    rfl
  | miss hi _ ih =>
    cases hb with
    | miss _ hb => exact ih hb
    | again hi' _ _ => cases hi.symm.trans hi'
    | enter hi' _ _ _ => cases hi.symm.trans hi'
  | again hi hp _ ih =>
    cases hb with
    | miss hi' _ => cases hi.symm.trans hi'
    | again hi' _ hb =>
      obtain rfl := Option.some.inj (hi.symm.trans hi')
      exact ih hb
    | enter hi' hp' _ _ =>
      obtain rfl := Option.some.inj (hi.symm.trans hi')
      exact absurd hp hp'
  | enter hi hp _ _ ihinner ihrest =>
    cases hb with
    | miss hi' _ => cases hi.symm.trans hi'
    | again hi' hp' _ =>
      obtain rfl := Option.some.inj (hi.symm.trans hi')
      exact absurd hp' hp
    | enter hi' _ hinner hrest =>
      obtain rfl := Option.some.inj (hi.symm.trans hi')
      obtain rfl := ihinner hinner
      exact ihrest hrest

theorem DepthFirstAll.unique {a b : Record} (ha : DepthFirstAll h cs t a)
    (hb : DepthFirstAll h cs t b) : b = a := by
  induction ha generalizing b with
  | done =>
    cases hb
    rfl
  | again hmain _ ih =>
    cases hb with
    | again _ hb => exact ih hb
    | enter hmain' _ _ => exact absurd hmain hmain'
  | enter hmain hrun _ ih =>
    cases hb with
    | again hmain' _ => exact absurd hmain' hmain
    | enter _ hrun' hb =>
      obtain rfl := hrun.unique hrun'
      exact ih hb

/-! ## What the recursion records -/

/-- The edge that an include adds, and those of the includes after it. -/
theorem edge_or_iff {f p p' q : Path} {t : Record} (hi : i.file? h f directories = some p) :
    ((p', q) ∈ (t.edge p f).edges ∨ q = f ∧ ∃ j ∈ is, j.file? h f directories = some p') ↔
      (p', q) ∈ t.edges ∨ q = f ∧ ∃ j ∈ i :: is, j.file? h f directories = some p' := by
  have hcomm : p' = p ∧ q = f ↔ q = f ∧ p = p' := by rw [and_comm, eq_comm (a := p)]
  rw [List.exists_mem_cons_iff, hi, Option.some.injEq, Record.edge, List.mem_append,
    List.mem_singleton, Prod.mk.injEq, hcomm, and_or_left, or_assoc]

/-- **What one recursion adds**: files that had not been scanned, and the
edges to all that `is` and these files include. -/
theorem DepthFirst.adds (hrun : DepthFirst h directories f is t t') :
    ∃ new : List Path, t'.scans = t.scans ++ new.map (fun p => (p, directories)) ∧
      (t.scanned.Nodup → t'.scanned.Nodup) ∧
      ∀ p q, (p, q) ∈ t'.edges ↔
        ((p, q) ∈ t.edges ∨ q = f ∧ ∃ i ∈ is, i.file? h f directories = some p) ∨
        (q ∈ new ∧ p ∈ h.includedBy directories q) := by
  induction hrun with
  | done => exact ⟨[], (List.append_nil _).symm, id, fun p q => by simp⟩
  | miss hi _ ih =>
    obtain ⟨new, hscans, hnodup, hedges⟩ := ih
    refine ⟨new, hscans, hnodup, fun p q => ?_⟩
    rw [hedges, List.exists_mem_cons_iff, hi]
    simp
  | again hi hp _ ih =>
    obtain ⟨new, hscans, hnodup, hedges⟩ := ih
    refine ⟨new, hscans, hnodup, fun p q => ?_⟩
    rw [hedges, edge_or_iff hi]
  | @enter f p i is t t₁ t' hi hp _ _ ihinner ihrest =>
    obtain ⟨new₁, hscans₁, hnodup₁, hedges₁⟩ := ihinner
    obtain ⟨new₂, hscans₂, hnodup₂, hedges₂⟩ := ihrest
    have hnodup : t.scanned.Nodup → t'.scanned.Nodup := fun ht =>
      hnodup₂ (hnodup₁ (Record.nodup_scan ht hp))
    refine ⟨p :: new₁ ++ new₂, ?_, hnodup, fun p' q => ?_⟩
    · rw [hscans₂, hscans₁, Record.scan, Record.edge]
      simp
    · -- what the file itself includes counts with what the new files include
      have hown : (q = p ∧ ∃ j ∈ h.includesOf p, j.file? h p directories = some p') ↔
          q = p ∧ p' ∈ h.includedBy directories q :=
        and_congr_right fun hq => hq ▸ Host.mem_includedBy.symm
      have hnew : q ∈ p :: new₁ ++ new₂ ↔ q = p ∨ q ∈ new₁ ∨ q ∈ new₂ := by
        rw [List.cons_append, List.mem_cons, List.mem_append]
      have hedge : (p', q) ∈ (t.edge p f).edges ∨
          (q = f ∧ ∃ j ∈ is, j.file? h f directories = some p') ↔ _ := edge_or_iff hi
      have hscan : ((t.edge p f).scan p directories).edges = (t.edge p f).edges := rfl
      rw [hedges₂, hedges₁, hown, ← hedge, hnew, hscan, or_and_right, or_and_right,
        or_right_comm (b := q ∈ new₁ ∧ _), or_right_comm (b := q = p ∧ _), or_assoc, or_assoc]

/-- Whether a record tells exactly what has been found: each file has been
scanned once, and there is an edge for all that it includes. -/
structure Record.IsTrace (h : Host) (t : Record) : Prop where
  nodup : t.scanned.Nodup
  edges : ∀ p f, (p, f) ∈ t.edges ↔
    ∃ directories, (f, directories) ∈ t.scans ∧ p ∈ h.includedBy directories f

theorem Record.isTrace_start : Record.start.IsTrace h where
  nodup := List.nodup_nil
  edges p f := by simp [Record.start]

/-- **The recursion from a main file** keeps a record exact. -/
theorem Record.IsTrace.depthFirst (ht : t.IsTrace h) (hf : f ∉ t.scanned)
    (hrun : DepthFirst h directories f (h.includesOf f) (t.scan f directories) t') :
    t'.IsTrace h := by
  obtain ⟨new, hscans, hnodup, hedges⟩ := hrun.adds
  refine ⟨hnodup (nodup_scan ht.nodup hf), fun p q => ?_⟩
  · have hsplit : t'.scans = t.scans ++ (f :: new).map fun p => (p, directories) := by
      rw [hscans, Record.scan, List.append_assoc]
      rfl
    have hadded : (∃ d, (q, d) ∈ (f :: new).map (fun p => (p, directories)) ∧
        p ∈ h.includedBy d q) ↔ q ∈ f :: new ∧ p ∈ h.includedBy directories q := by
      constructor
      · rintro ⟨d, hd, hp⟩
        obtain ⟨q', hq', heq⟩ := List.mem_map.1 hd
        obtain ⟨rfl, rfl⟩ := Prod.mk.inj heq
        exact ⟨hq', hp⟩
      · rintro ⟨hq, hp⟩
        exact ⟨directories, List.mem_map.2 ⟨q, hq, rfl⟩, hp⟩
    have hold : (p, q) ∈ (t.scan f directories).edges ↔ ∃ d, (q, d) ∈ t.scans ∧
        p ∈ h.includedBy d q := ht.edges p q
    have hown : (q = f ∧ ∃ i ∈ h.includesOf f, i.file? h f directories = some p) ↔
        q = f ∧ p ∈ h.includedBy directories q :=
      and_congr_right fun hq => hq ▸ Host.mem_includedBy.symm
    rw [hedges, hold, hown, or_assoc, ← or_and_right, ← List.mem_cons, ← hadded, hsplit]
    simp only [List.mem_append, or_and_right, exists_or]

theorem DepthFirstAll.isTrace (ht : t.IsTrace h) (hrun : DepthFirstAll h cs t t') :
    t'.IsTrace h := by
  induction hrun with
  | done => exact ht
  | again _ _ ih => exact ih ht
  | enter hmain hrun _ ih => exact ih (ht.depthFirst hmain hrun)

/-- What the recursion has an edge to, it scans. -/
theorem DepthFirst.scanned_of_edge (ht : ∀ e ∈ t.edges, e.1 ∈ t.scanned)
    (hrun : DepthFirst h directories f is t t') : ∀ e ∈ t'.edges, e.1 ∈ t'.scanned := by
  induction hrun with
  | done => exact ht
  | miss _ _ ih => exact ih ht
  | again _ hp _ ih =>
    exact ih (List.forall_mem_append.2 ⟨ht, List.forall_mem_singleton.2 hp⟩)
  | enter _ _ _ _ ihinner ihrest =>
    refine ihrest (ihinner (List.forall_mem_append.2 ⟨fun e he => ?_, ?_⟩))
    · exact Record.scanned_scan .. ▸ List.mem_append_left _ (ht e he)
    · exact List.forall_mem_singleton.2
        (Record.scanned_scan .. ▸ List.mem_append_right _ (List.mem_singleton_self _))

theorem DepthFirstAll.scanned_of_edge (ht : ∀ e ∈ t.edges, e.1 ∈ t.scanned)
    (hrun : DepthFirstAll h cs t t') : ∀ e ∈ t'.edges, e.1 ∈ t'.scanned := by
  induction hrun with
  | done => exact ht
  | again _ _ ih => exact ih ht
  | enter _ hrun _ ih =>
    refine ih (hrun.scanned_of_edge fun e he => ?_)
    exact Record.scanned_scan .. ▸ List.mem_append_left _ (ht e he)

/-- What has been scanned stays so. -/
theorem DepthFirstAll.scans_subset (hrun : DepthFirstAll h cs t t') : t.scans ⊆ t'.scans := by
  induction hrun with
  | done => exact List.Subset.refl _
  | again _ _ ih => exact ih
  | enter _ hrun _ ih =>
    obtain ⟨new, hscans, -⟩ := hrun.adds
    intro s hs
    exact ih (hscans ▸ List.mem_append_left _ (List.mem_append_left _ hs))

/-- The first main file is scanned with its own search directories. -/
theorem DepthFirstAll.mem_scans_of_first (hrun : DepthFirstAll h (c :: cs) Record.start t) :
    (c.normalizedFile, c.searchDirectories) ∈ t.scans := by
  cases hrun with
  | again hmain _ => exact absurd hmain List.not_mem_nil
  | enter _ hrun hrest =>
    obtain ⟨new, hscans, -⟩ := hrun.adds
    exact hrest.scans_subset (hscans ▸ List.mem_append_left _ (List.mem_singleton_self _))

/-! ## The stack is what the recursion still has to do -/

/-- The recursion through all that is on a stack, innermost file first. -/
inductive DepthFirstStack (h : Host) (directories : List Path) :
    List (Path × List Include) → Record → Record → Prop
  | done {t : Record} : DepthFirstStack h directories [] t t
  | next {f : Path} {is : List Include} {stack : List (Path × List Include)} {t t₁ t' : Record} :
      DepthFirst h directories f is t t₁ → DepthFirstStack h directories stack t₁ t' →
      DepthFirstStack h directories ((f, is) :: stack) t t'

/-- Whether a walk and a record have come to the same: the same files in
the same order, and the graph of the record's edges. -/
structure Walk.Matches (known : List Path) (w : Walk) (t : Record) : Prop where
  reached : w.reached.reverse = t.scanned
  graph : w.graph = ofEdges known t.edges

namespace Walk.Matches

theorem start : Walk.start.Matches known Record.start := ⟨rfl, rfl⟩

theorem mem_iff (hw : w.Matches known t) : p ∈ w.reached ↔ p ∈ t.scanned := by
  rw [← hw.reached, List.mem_reverse]

theorem hit (hw : w.Matches known t) (line : LogLine) (p f : Path) :
    (w.hit line known p f).Matches known (t.edge p f) where
  reached := hw.reached
  graph := by
    rw [Record.edge, ofEdges_concat, ← hw.graph]
    rfl

theorem reach (hw : w.Matches known t) (h : Host) (p : Path) (directories : List Path) :
    (w.reach h p).Matches known (t.scan p directories) where
  reached := by
    rw [Record.scanned_scan, ← hw.reached]
    exact List.reverse_cons
  graph := hw.graph

end Walk.Matches

/-- **A walk that comes to its end has done what the recursion does** with
all that was on its stack. -/
theorem StackRun.depthFirst (hrun : StackRun h known directories stack w w')
    (hw : w.Matches known t) :
    ∃ t', w'.Matches known t' ∧ DepthFirstStack h directories stack t t' := by
  induction hrun generalizing t with
  | empty => exact ⟨t, hw, .done⟩
  | pop _ ih =>
    obtain ⟨t', hw', hrest⟩ := ih hw
    exact ⟨t', hw', .next .done hrest⟩
  | miss hi _ ih =>
    obtain ⟨t', hw', hrest⟩ := ih ⟨hw.reached, hw.graph⟩
    cases hrest with
    | next hfile hstack => exact ⟨t', hw', .next (.miss hi hfile) hstack⟩
  | again hi hp _ ih =>
    obtain ⟨t', hw', hrest⟩ := ih (hw.hit _ _ _)
    cases hrest with
    | next hfile hstack => exact ⟨t', hw', .next (.again hi (hw.mem_iff.1 hp) hfile) hstack⟩
  | push hi hp _ ih =>
    -- the file on top is gone into, and the file below is gone on with
    obtain ⟨t', hw', hrest⟩ := ih ((hw.hit _ _ _).reach _ _ directories)
    cases hrest with
    | next hinner hrest =>
      cases hrest with
      | next hfile hstack =>
        exact ⟨t', hw', .next (.enter hi (fun hp' => hp (hw.mem_iff.2 hp')) hinner hfile) hstack⟩

/-! ## Several commands -/

/-- The walk over several commands without a limit. -/
inductive Run (h : Host) (known : List Path) : List CompileCommand → Walk → Walk → Prop
  | done {w : Walk} : Run h known [] w w
  | again {c : CompileCommand} {cs : List CompileCommand} {w w' : Walk} :
      c.normalizedFile ∈ w.reached → Run h known cs w w' → Run h known (c :: cs) w w'
  | enter {c : CompileCommand} {cs : List CompileCommand} {w w₁ w' : Walk} :
      c.normalizedFile ∉ w.reached →
      StackRun h known c.searchDirectories [(c.normalizedFile, h.includesOf c.normalizedFile)]
        (w.reach h c.normalizedFile) w₁ →
      Run h known cs w₁ w' → Run h known (c :: cs) w w'

/-- A walk has one end. -/
theorem StackRun.unique {a b : Walk} (ha : StackRun h known directories stack w a)
    (hb : StackRun h known directories stack w b) : b = a := by
  induction ha generalizing b with
  | empty =>
    cases hb
    rfl
  | pop _ ih =>
    cases hb with
    | pop hb => exact ih hb
  | miss hi _ ih =>
    cases hb with
    | miss _ hb => exact ih hb
    | again hi' _ _ => cases hi.symm.trans hi'
    | push hi' _ _ => cases hi.symm.trans hi'
  | again hi hp _ ih =>
    cases hb with
    | miss hi' _ => cases hi.symm.trans hi'
    | again hi' _ hb =>
      obtain rfl := Option.some.inj (hi.symm.trans hi')
      exact ih hb
    | push hi' hp' _ =>
      obtain rfl := Option.some.inj (hi.symm.trans hi')
      exact absurd hp hp'
  | push hi hp _ ih =>
    cases hb with
    | miss hi' _ => cases hi.symm.trans hi'
    | again hi' hp' _ =>
      obtain rfl := Option.some.inj (hi.symm.trans hi')
      exact absurd hp' hp
    | push hi' _ hb =>
      obtain rfl := Option.some.inj (hi.symm.trans hi')
      exact ih hb

theorem Run.unique {a b : Walk} (ha : Run h known cs w a) (hb : Run h known cs w b) : b = a := by
  induction ha generalizing b with
  | done =>
    cases hb
    rfl
  | again hmain _ ih =>
    cases hb with
    | again _ hb => exact ih hb
    | enter hmain' _ _ => exact absurd hmain hmain'
  | enter hmain hrun _ ih =>
    cases hb with
    | again hmain' _ => exact absurd hmain' hmain
    | enter _ hrun' hb =>
      obtain rfl := hrun.unique hrun'
      exact ih hb

/-- **Walking several commands comes to an end.** -/
theorem run_foldl (known : List Path) (hcs : ∀ c ∈ cs, c.directory.isAbsolute = true) (w : Walk) :
    Run h known cs w (cs.foldl (walkCommand h known) w) := by
  induction cs generalizing w with
  | nil => exact .done
  | cons c cs ih =>
    obtain ⟨hc, hcs⟩ := List.forall_mem_cons.1 hcs
    rw [List.foldl_cons]
    by_cases hmain : c.normalizedFile ∈ w.reached
    · rw [walkCommand_again hmain]
      exact .again hmain (ih hcs w)
    · rw [walkCommand_enter hmain]
      exact .enter hmain (stackRun_main w (CompileCommand.isAbsolute_of_mem_searchDirectories hc)
        (CompileCommand.isCanonical_normalizedFile hc).1) (ih hcs _)

theorem Run.depthFirst (hrun : Run h known cs w w') (hw : w.Matches known t) :
    ∃ t', w'.Matches known t' ∧ DepthFirstAll h cs t t' := by
  induction hrun generalizing t with
  | done => exact ⟨t, hw, .done⟩
  | again hmain _ ih =>
    obtain ⟨t', hw', hrest⟩ := ih hw
    exact ⟨t', hw', .again (hw.mem_iff.1 hmain) hrest⟩
  | enter hmain hstack _ ih =>
    obtain ⟨t₁, hw₁, hmain'⟩ := hstack.depthFirst (hw.reach _ _ _)
    obtain ⟨t', hw', hrest⟩ := ih hw₁
    cases hmain' with
    | next hfile hnone =>
      cases hnone
      exact ⟨t', hw', .enter (fun hp => hmain (hw.mem_iff.2 hp)) hfile hrest⟩

/-- Whether a walk over commands is the depth-first recursion, of which `t`
is the record: it comes to its end, has scanned what the recursion scans,
each file once, and has the graph of the edges that the recursion meets,
an edge for each file that a scanned file includes. -/
structure Walk.IsDepthFirst (h : Host) (known : List Path) (cs : List CompileCommand) (w : Walk)
    (t : Record) : Prop where
  run : ∀ w', Run h known cs Walk.start w' ↔ w' = w
  recursion : ∀ t', DepthFirstAll h cs Record.start t' ↔ t' = t
  scanned : w.reached.reverse = t.scanned
  once : t.scanned.Nodup
  graph : w.graph = ofEdges known t.edges
  edges : ∀ p f, f ∈ w.graph.includers p ↔
    (∃ directories, (f, directories) ∈ t.scans ∧ p ∈ h.includedBy directories f) ∧
      p ≠ f ∧ p ∉ known
  nodup : ∀ p, (w.graph.includers p).Nodup

/-- **The walk over a stack is the depth-first recursion**, for commands
in absolute directories. -/
theorem walkAll_isDepthFirst (hcs : ∀ c ∈ cs, c.directory.isAbsolute = true) :
    ∃ t, (walkAll h known cs).IsDepthFirst h known cs t := by
  have hrun : Run h known cs Walk.start (walkAll h known cs) := run_foldl known hcs Walk.start
  obtain ⟨t, hmatches, hall⟩ := hrun.depthFirst Walk.Matches.start
  have htrace := DepthFirstAll.isTrace Record.isTrace_start hall
  refine ⟨t, ?_, ?_, hmatches.reached, htrace.nodup, hmatches.graph, fun p f => ?_, fun p => ?_⟩
  · exact fun w' => ⟨fun hw' => hrun.unique hw', fun hw' => hw' ▸ hrun⟩
  · exact fun t' => ⟨fun ht' => hall.unique ht', fun ht' => ht' ▸ hall⟩
  · rw [hmatches.graph, mem_includers_ofEdges, htrace.edges]
  · rw [hmatches.graph]
    exact nodup_includers_ofEdges ..

theorem walkAll_isDepthFirst_cycle :
    (∀ c ∈ [Cycle.command], c.directory.isAbsolute = true) ∧
      ∃ t, (walkAll Cycle.host [] [Cycle.command]).IsDepthFirst
        Cycle.host [] [Cycle.command] t := by
  have hcs : ∀ c ∈ [Cycle.command], c.directory.isAbsolute = true :=
    List.forall_mem_singleton.2 (by decide)
  exact ⟨hcs, walkAll_isDepthFirst hcs⟩

end IncludeGraph

end CompileCommands
