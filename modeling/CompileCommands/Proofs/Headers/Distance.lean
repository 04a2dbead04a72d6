import CompileCommands.Proofs.FirstOfEach
import CompileCommands.Proofs.Greatest
import CompileCommands.Proofs.Headers.Closest
import CompileCommands.Proofs.Path.Spelled
/-!
# How far up a lender stands

The distance of a file is the least number of steps through includers
that lead up to it, and a traversal level by level discovers the files
of each distance together (`mem_level`). The search for the closest
includer is such a traversal, ended at the first level with a file that
has a command (`ascent_of_room`), so what it gives is nearest, of the
nearest most alike, and of the most alike discovered first
(`closest?_isClosest`).

The files of a graph and the files with a command are canonical, so each
has one spelling. The file that the search starts from may be spelled in
any way, and is looked up under the one that its components have.
-/

namespace CompileCommands

namespace IncludeGraph

variable {g : IncludeGraph} {known visited last : List Path} {p q r : Path} {d k : Nat}

/-! ## Distance -/

/-- Whether `k` steps, each from a file to one that includes it, lead from
`p` to `q`. -/
inductive Climbs (g : IncludeGraph) (p : Path) : Nat → Path → Prop
  | refl : Climbs g p 0 p
  | step {k : Nat} {q r : Path} : Climbs g p k q → r ∈ g.includers q → Climbs g p (k + 1) r

/-- Whether `d` steps is the least that leads from `p` to `q`. -/
def IsDistance (g : IncludeGraph) (p : Path) (d : Nat) (q : Path) : Prop :=
  g.Climbs p d q ∧ ∀ k < d, ¬ g.Climbs p k q

theorem climbs_zero : g.Climbs p 0 q ↔ q = p := by
  constructor
  · intro h
    cases h
    rfl
  · rintro rfl
    exact .refl

theorem climbs_succ : g.Climbs p (k + 1) r ↔ ∃ q, g.Climbs p k q ∧ r ∈ g.includers q := by
  constructor
  · intro h
    cases h with
    | step hq hr => exact ⟨_, hq, hr⟩
  · rintro ⟨q, hq, hr⟩
    exact .step hq hr

/-- Whatever can be climbed to has a distance. -/
theorem Climbs.exists_isDistance (h : g.Climbs p k q) : ∃ d ≤ k, g.IsDistance p d q := by
  classical
  have hex : ∃ k, g.Climbs p k q := ⟨k, h⟩
  exact ⟨Nat.find hex, Nat.find_min' hex h, Nat.find_spec hex, fun _ => Nat.find_min hex⟩

/-- Only a file itself is no step away. -/
theorem IsDistance.pos_iff (h : g.IsDistance p d q) : 0 < d ↔ q ≠ p := by
  constructor
  · rintro hd rfl
    exact h.2 0 hd .refl
  · intro hne
    rcases Nat.eq_zero_or_pos d with rfl | hd
    · exact absurd (climbs_zero.1 h.1) hne
    · exact hd

/-! ## Level by level -/

/-- How far a traversal has come: what it has discovered, and the last
level of it. -/
structure Front where
  discovered : List Path
  level : List Path

/-- One level further: the includers of the last level, in order, that
have not been discovered, each once. -/
def Front.next (g : IncludeGraph) (f : Front) : Front :=
  let level := firstOfEach id f.discovered (f.level.flatMap g.includers)
  ⟨level ++ f.discovered, level⟩

/-- The traversal from `p` after `d` levels. -/
def front (g : IncludeGraph) (p : Path) (d : Nat) : Front := (Front.next g)^[d] ⟨[p], [p]⟩

/-- The files that a traversal from `p` discovers `d` levels up, in the
order in which it does. -/
def level (g : IncludeGraph) (p : Path) (d : Nat) : List Path := (g.front p d).level

theorem front_succ (g : IncludeGraph) (p : Path) (d : Nat) :
    g.front p (d + 1) = (g.front p d).next g :=
  Function.iterate_succ_apply' ..

theorem level_succ (g : IncludeGraph) (p : Path) (d : Nat) :
    g.level p (d + 1) =
      firstOfEach id (g.front p d).discovered ((g.level p d).flatMap g.includers) := by
  rw [level, front_succ]
  rfl

theorem mem_level_succ : q ∈ g.level p (d + 1) ↔
    q ∉ (g.front p d).discovered ∧ ∃ r ∈ g.level p d, q ∈ g.includers r := by
  rw [level_succ, mem_firstOfEach, List.mem_flatMap]

/-- **A traversal discovers what can be climbed to**, and each file at its
distance. -/
theorem mem_front (g : IncludeGraph) (p : Path) (d : Nat) :
    (∀ q, q ∈ (g.front p d).discovered ↔ ∃ k ≤ d, g.Climbs p k q) ∧
      ∀ q, q ∈ g.level p d ↔ g.IsDistance p d q := by
  induction d with
  | zero =>
    have hstart : ∀ q, q ∈ [p] ↔ g.Climbs p 0 q := fun q => by
      rw [List.mem_singleton, climbs_zero]
    refine ⟨fun q => (hstart q).trans ?_, fun q => (hstart q).trans ?_⟩
    · exact ⟨fun h => ⟨0, le_refl 0, h⟩, fun ⟨k, hk, h⟩ => Nat.le_zero.1 hk ▸ h⟩
    · exact ⟨fun h => ⟨h, fun k hk => absurd hk (Nat.not_lt_zero k)⟩, fun h => h.1⟩
  | succ d ih =>
    obtain ⟨hdiscovered, hlevel⟩ := ih
    have hnext : ∀ q, q ∈ g.level p (d + 1) ↔ g.IsDistance p (d + 1) q := by
      intro q
      rw [mem_level_succ, hdiscovered]
      constructor
      · rintro ⟨hnew, r, hr, hq⟩
        refine ⟨.step ((hlevel r).1 hr).1 hq, fun k hk hclimb => ?_⟩
        exact hnew ⟨k, Nat.le_of_lt_succ hk, hclimb⟩
      · rintro ⟨hclimb, hleast⟩
        obtain ⟨r, hr, hq⟩ := climbs_succ.1 hclimb
        refine ⟨fun ⟨k, hk, h⟩ => hleast k (Nat.lt_succ_of_le hk) h, r, (hlevel r).2 ⟨hr, ?_⟩, hq⟩
        -- a shorter way to the file below would be one to this file
        exact fun k hk h => hleast (k + 1) (Nat.succ_lt_succ hk) (.step h hq)
    refine ⟨fun q => ?_, hnext⟩
    have hsplit : (g.front p (d + 1)).discovered =
        g.level p (d + 1) ++ (g.front p d).discovered := by
      rw [level, front_succ]
      rfl
    rw [hsplit, List.mem_append, hnext, hdiscovered]
    constructor
    · rintro (h | ⟨k, hk, h⟩)
      · exact ⟨d + 1, le_refl _, h.1⟩
      · exact ⟨k, Nat.le_succ_of_le hk, h⟩
    · rintro ⟨k, hk, h⟩
      obtain ⟨e, he, hdist⟩ := h.exists_isDistance
      rcases Nat.lt_or_ge d e with hlt | hle
      · obtain rfl : e = d + 1 := by omega
        exact .inl hdist
      · exact .inr ⟨e, hle, hdist.1⟩

/-- **The level of a file is its distance.** -/
theorem mem_level : q ∈ g.level p d ↔ g.IsDistance p d q := (mem_front g p d).2 q

/-- Above an empty level there is nothing. -/
theorem level_eq_nil_of_le {e : Nat} (h : g.level p d = []) (hde : d ≤ e) : g.level p e = [] := by
  induction e, hde using Nat.le_induction with
  | base => exact h
  | succ e _ ih => rw [level_succ, ih]; rfl

/-! ## The search is a traversal -/

/-- What the search finds on a level is what a traversal discovers. -/
theorem nextLevel_eq (g : IncludeGraph) (visited level : List Path) :
    g.nextLevel visited level = firstOfEach id visited (level.flatMap g.includers) := by
  rw [nextLevel]
  generalize level.flatMap g.includers = ps
  induction ps using List.reverseRecOn with
  | nil => rfl
  | append_singleton ps p ih =>
    rw [List.foldl_append, List.foldl_cons, List.foldl_nil, ih, firstOfEach_concat]

/-- The most alike is the first of the greatest. -/
theorem mostAlike_eq (p : Path) (qs : List Path) :
    mostAlike p qs = firstGreatest? p.similarity qs := by
  cases qs <;> rfl

/-- The search without a limit: level by level up from `visited`, the last
level of which is `last`, to the file that it gives, if any. -/
inductive Ascent (g : IncludeGraph) (known : List Path) (p : Path) :
    List Path → List Path → Option Path → Prop
  | top {visited : List Path} : Ascent g known p visited [] none
  | found {visited last : List Path} {q : Path} : last ≠ [] →
      mostAlike p ((g.nextLevel visited last).filter (· ∈ known)) = some q →
      Ascent g known p visited last (some q)
  | up {visited last : List Path} {result : Option Path} : last ≠ [] →
      mostAlike p ((g.nextLevel visited last).filter (· ∈ known)) = none →
      Ascent g known p (g.nextLevel visited last ++ visited) (g.nextLevel visited last) result →
      Ascent g known p visited last result

/-- A search has one end. -/
theorem Ascent.unique {a b : Option Path} (ha : Ascent g known p visited last a)
    (hb : Ascent g known p visited last b) : b = a := by
  induction ha with
  | top =>
    cases hb with
    | top => rfl
    | found hne _ => exact absurd rfl hne
    | up hne _ _ => exact absurd rfl hne
  | found hne hq =>
    cases hb with
    | top => exact absurd rfl hne
    | found _ hq' => exact hq'.symm.trans hq
    | up _ hq' _ => cases hq.symm.trans hq'
  | up hne hq _ ih =>
    cases hb with
    | top => exact absurd rfl hne
    | found _ hq' => cases hq.symm.trans hq'
    | up _ _ hb => exact ih hb

/-- **The limit is never what ends a search** if it may go up as many
levels as there are includers left. -/
theorem ascent_of_room {n : Nat} (hroom : (g.allIncluders.filter (· ∉ visited)).card < n) :
    Ascent g known p visited last (g.closestFrom known p n visited last) := by
  induction n generalizing visited last with
  | zero => exact absurd hroom (Nat.not_lt_zero _)
  | succ n ih =>
    rw [closestFrom]
    by_cases hlast : last = []
    · subst hlast
      exact .top
    cases hbest : mostAlike p ((g.nextLevel visited last).filter (· ∈ known)) with
    | some q => exact .found hlast hbest
    | none =>
      refine .up hlast hbest ?_
      cases hnext : g.nextLevel visited last with
      | nil => exact .top
      | cons r rs =>
        -- the level uses up an includer
        have hr : r ∈ g.nextLevel visited last := hnext ▸ List.mem_cons_self ..
        obtain ⟨hnew, q, -, hrq⟩ := mem_nextLevel.1 hr
        have hcard := card_filter_append_lt (mem_allIncluders_of_mem_includers hrq) hnew hr
        rw [hnext] at hcard
        exact ih (by omega)

theorem ascent_closest? (g : IncludeGraph) (known : List Path) (p : Path) :
    Ascent g known p.spelled [p.spelled] [p.spelled] (g.closest? known p) := by
  have hroom : (g.allIncluders.filter (· ∉ [p.spelled])).card <
      g.foldr (fun e edges => e.2.length + edges) 1 :=
    lt_of_le_of_lt (Finset.card_filter_le _ _) g.card_allIncluders_lt
  exact ascent_of_room hroom

/-! ## Where the search ends -/

/-- Whether no file with a command is discovered on the levels up to
`d`, the first one apart. -/
def NoneUpTo (g : IncludeGraph) (known : List Path) (s : Path) (d : Nat) : Prop :=
  ∀ e, 0 < e → e ≤ d → ∀ q ∈ g.level s e, q ∉ known

/-- What has been looked at: one level more. -/
theorem NoneUpTo.succ {s : Path} (hnone : g.NoneUpTo known s d)
    (hlevel : ∀ q ∈ g.level s (d + 1), q ∉ known) : g.NoneUpTo known s (d + 1) := by
  intro e hpos he
  rcases Nat.lt_or_ge d e with hlt | hle
  · obtain rfl : e = d + 1 := by omega
    exact hlevel
  · exact hnone e hpos hle

/-- **Where a search ends**: above all levels, or at the first level with
a file that has a command. -/
theorem Ascent.ends {result : Option Path} {s : Path}
    (h : Ascent g known p (g.front s d).discovered (g.level s d) result)
    (hnone : g.NoneUpTo known s d) :
    (result = none ∧ ∀ e, g.NoneUpTo known s e) ∨
      ∃ e, g.NoneUpTo known s e ∧
        firstGreatest? p.similarity ((g.level s (e + 1)).filter (· ∈ known)) = result ∧
        result ≠ none := by
  have hnext : ∀ d, g.nextLevel (g.front s d).discovered (g.level s d) = g.level s (d + 1) :=
    fun d => by rw [nextLevel_eq, level_succ]
  generalize hvisited : (g.front s d).discovered = visited at h
  generalize hlast : g.level s d = last at h
  induction h generalizing d with
  | top =>
    refine .inl ⟨rfl, fun e k hpos hk q hq => ?_⟩
    rcases Nat.le_total k d with hle | hle
    · exact hnone k hpos hle q hq
    · rw [level_eq_nil_of_le hlast hle] at hq
      exact absurd hq List.not_mem_nil
  | found _ hq =>
    subst hvisited hlast
    rw [hnext, mostAlike_eq] at hq
    exact .inr ⟨d, hnone, hq, Option.some_ne_none _⟩
  | up _ hq _ ih =>
    subst hvisited hlast
    rw [hnext] at hq ih
    refine ih (d := d + 1) (hnone.succ fun q hmem hknown => ?_) ?_ rfl
    · rw [mostAlike_eq_none] at hq
      exact List.filter_eq_nil_iff.1 hq q hmem (decide_eq_true hknown)
    · rw [front_succ, level_succ]
      rfl

/-! ## The closest lender -/

/-- Whether `q` is what a search upwards from `p` should give: of the
files with a command other than `p` one of the nearest, of the nearest
one of the most alike, and of these the first that is discovered. -/
structure IsClosest (g : IncludeGraph) (known : List Path) (p : Path) (d : Nat) (q : Path) :
    Prop where
  listed : q ∈ known
  other : q ≠ p.spelled
  distance : g.IsDistance p.spelled d q
  nearest : ∀ r ∈ known, r ≠ p.spelled → ∀ k, g.Climbs p.spelled k r → d ≤ k
  mostAlike : ∀ r ∈ known, g.IsDistance p.spelled d r → p.similarity r ≤ p.similarity q
  first : IsFirstGreatest p.similarity ((g.level p.spelled d).filter (· ∈ known)) q

/-- **A search that finds no file with a command on the levels up to `d`**
and picks the first of the most alike from the next finds the closest. -/
theorem NoneUpTo.isClosest (hnone : g.NoneUpTo known p.spelled d)
    (hq : firstGreatest? p.similarity ((g.level p.spelled (d + 1)).filter (· ∈ known)) = some q) :
    g.IsClosest known p (d + 1) q := by
  have hfirst := isFirstGreatest_iff.2 hq
  obtain ⟨hlevel, hknown⟩ := List.mem_filter.1 hfirst.mem
  have hdistance := mem_level.1 hlevel
  refine ⟨of_decide_eq_true hknown, hdistance.pos_iff.1 (Nat.succ_pos d), hdistance, ?_, ?_, hfirst⟩
  · intro r hr hne k hk
    obtain ⟨e, hek, he⟩ := hk.exists_isDistance
    by_contra hlt
    exact hnone e (he.pos_iff.2 hne) (by omega) r (mem_level.2 he) hr
  · intro r hr hdist
    exact hfirst.le (List.mem_filter.2 ⟨mem_level.2 hdist, decide_eq_true hr⟩)

/-- **The closest includer**, for every graph, every list of files with a
command and every file: the search comes to its end, gives nothing
exactly if includers lead to no file with a command but the file itself,
and else the first discovered of the most alike of the nearest. -/
theorem closest?_isClosest (g : IncludeGraph) (known : List Path) (p : Path) :
    (∀ result, Ascent g known p.spelled [p.spelled] [p.spelled] result ↔
      result = g.closest? known p) ∧
    (g.closest? known p = none ↔
      ∀ q ∈ known, q ≠ p.spelled → ∀ k, ¬ g.Climbs p.spelled k q) ∧
    ∀ q, g.closest? known p = some q → ∃ d, g.IsClosest known p d q := by
  have hrun := ascent_closest? g known p
  have hstart : g.NoneUpTo known p.spelled 0 := fun e hpos he => by omega
  have hsimilar : p.spelled.similarity = p.similarity := funext p.similarity_spelled
  have hends := Ascent.ends (d := 0) hrun hstart
  rw [hsimilar] at hends
  refine ⟨fun result => ⟨fun h => hrun.unique h, fun h => h ▸ hrun⟩, ?_, ?_⟩
  · constructor
    · intro hnone q hq hne k hk
      obtain ⟨d, -, hd⟩ := hk.exists_isDistance
      rcases hends with ⟨-, hall⟩ | ⟨e, -, -, hsome⟩
      · exact hall d d (hd.pos_iff.2 hne) (le_refl d) q (mem_level.2 hd) hq
      · exact hsome hnone
    · intro hnone
      rcases hends with ⟨hresult, -⟩ | ⟨e, he, hbest, hsome⟩
      · exact hresult
      · obtain ⟨q, hq⟩ := Option.ne_none_iff_exists'.1 hsome
        have hclosest := he.isClosest (hbest.trans hq)
        exact absurd hclosest.distance.1 (hnone q hclosest.listed hclosest.other _)
  · intro q hq
    rcases hends with ⟨hnone, -⟩ | ⟨e, he, hbest, -⟩
    · cases hnone.symm.trans hq
    · exact ⟨e + 1, he.isClosest (hbest.trans hq)⟩

end IncludeGraph

end CompileCommands
