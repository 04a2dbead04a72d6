import CompileCommands.Proofs.Path.Relative
import Mathlib.Data.List.Induction
/-!
# Paths that lead back

A relative path seen from a relative directory is seldom the path that it
was: the names of the directory come before it. It is so exactly where
the directory goes up as far as it goes down again and the path goes up
at least that far (`normalizeIn_eq_iff`), as `..` does not undo a `..`.
-/

namespace CompileCommands

namespace Place

variable {s q : Place} {j k : Nat} {ms ns : List String}

/-! ## Following a place -/

theorem step_name_relative (k : Nat) (ns : List String) (n : String) :
    (relative k ns).step (.name n) = relative k (ns ++ [n]) := by
  cases ns <;> rfl

/-- **A name and `..` after it** lead back. -/
theorem step_name_parent (s : Place) (n : String) : (s.step (.name n)).step .parent = s := by
  cases s with
  | absolute ns => exact congrArg absolute List.dropLast_concat
  | relative k ns =>
    rw [step_name_relative]
    have hne : ns ++ [n] ≠ [] := List.concat_ne_nil n ns
    obtain ⟨m, ms, hms⟩ := List.exists_cons_of_ne_nil hne
    rw [hms]
    change relative k (m :: ms).dropLast = _
    rw [← hms, List.dropLast_concat]

theorem components_step_name (q : Place) (n : String) :
    (q.step (.name n)).components = q.components ++ [.name n] := by
  cases q with
  | absolute ns => simp [step, components]
  | relative k ns =>
    rw [step_name_relative]
    simp [components]

/-- **One step further** from a place is one step further along its
components. -/
theorem walk_components_step (s q : Place) (c : Component) :
    s.walk (q.step c).components = (s.walk q.components).step c := by
  have hname : ∀ (q : Place) (n : String),
      s.walk (q.step (.name n)).components = (s.walk q.components).step (.name n) := by
    intro q n
    rw [components_step_name, walk_append]
    rfl
  cases c with
  | root =>
    rw [step_root, step_root]
    change s.step .root = _
    exact step_root
  | current => rw [step_current, step_current]
  | name n => exact hname q n
  | parent =>
    -- the last name goes, or there is none
    have hback : ∀ (q : Place) (n : String), s.walk ((q.step (.name n)).step .parent).components =
        (s.walk (q.step (.name n)).components).step .parent := by
      intro q n
      rw [hname, step_name_parent, step_name_parent]
    cases q with
    | absolute ns =>
      rcases List.eq_nil_or_concat' ns with rfl | ⟨ms, n, rfl⟩
      · change s.step .root = (s.step .root).step .parent
        rw [step_root]
        rfl
      · exact hback (absolute ms) n
    | relative k ns =>
      rcases List.eq_nil_or_concat' ns with rfl | ⟨ms, n, rfl⟩
      · change s.walk (List.replicate (k + 1) .parent ++ []) =
          (s.walk (List.replicate k .parent ++ [])).step .parent
        rw [List.append_nil, List.append_nil, List.replicate_succ', walk_append]
        rfl
      · have hstep := hback (relative k ms) n
        rwa [step_name_relative] at hstep

/-- **Following a path is following the place it leads to.** -/
theorem walk_place (p : Path) (s : Place) : s.walk p.place.components = s.walk p.components := by
  suffices hfold : ∀ cs : List Component, s.walk (here.walk cs).components = s.walk cs from hfold _
  intro cs
  induction cs using List.reverseRecOn with
  | nil => rfl
  | append_singleton cs c ih =>
    rw [walk_append, walk_append]
    change s.walk ((here.walk cs).step c).components = (s.walk cs).step c
    rw [walk_components_step, ih]

/-! ## Going up -/

theorem walk_parents_of_le (hk : k ≤ ms.length) :
    (relative j ms).walk (List.replicate k .parent) = relative j (ms.take (ms.length - k)) := by
  induction k generalizing ms with
  | zero =>
    rw [Nat.sub_zero, List.take_length]
    rfl
  | succ k ih =>
    rcases List.eq_nil_or_concat' ms with rfl | ⟨ls, n, rfl⟩
    · exact absurd hk (Nat.not_succ_le_zero k)
    · rw [List.length_append, List.length_singleton] at hk ⊢
      rw [List.replicate_succ, walk_cons, ← step_name_relative, step_name_parent, ih (by omega),
        List.take_append_of_le_length (by omega), Nat.add_sub_add_right]

theorem walk_parents_of_ge (hk : ms.length ≤ k) :
    (relative j ms).walk (List.replicate k .parent) = relative (j + (k - ms.length)) [] := by
  obtain ⟨i, rfl⟩ := Nat.exists_eq_add_of_le hk
  rw [List.replicate_add, walk_append, walk_parents_of_le (Nat.le_refl _), Nat.sub_self,
    List.take_zero, walk_parents_relative, Nat.add_sub_cancel_left]

theorem walk_components_relative (s : Place) (k : Nat) (ns : List String) :
    s.walk (relative k ns).components =
      (s.walk (List.replicate k .parent)).walk (ns.map .name) :=
  walk_append ..

/-- **Ups and names add up**: where one relative place leads from another,
there is an up more for each up, and for each name one less or a name
more. -/
theorem exists_walk_components (j k : Nat) (ms ns : List String) :
    ∃ i ls, (relative j ms).walk (relative k ns).components = relative i ls ∧
      i + ms.length + ns.length = j + k + ls.length := by
  rw [walk_components_relative]
  rcases Nat.le_total k ms.length with hk | hk
  · rw [walk_parents_of_le hk, walk_names_relative]
    refine ⟨_, _, rfl, ?_⟩
    rw [List.length_append, List.length_take]
    omega
  · rw [walk_parents_of_ge hk, walk_names_relative]
    refine ⟨_, _, rfl, ?_⟩
    rw [List.nil_append]
    omega

/-- **Where a place leads back to itself**: from as many names as ups,
if it goes up past all of them. -/
theorem walk_eq_iff : (relative j ms).walk (relative k ns).components = relative k ns ↔
    j = ms.length ∧ ms.length ≤ k := by
  constructor
  · intro hwalk
    obtain ⟨i, ls, hsame, hsum⟩ := exists_walk_components j k ms ns
    obtain ⟨rfl, rfl⟩ := relative.inj (hwalk.symm.trans hsame)
    have hj : j = ms.length := by omega
    refine ⟨hj, ?_⟩
    by_contra hlt
    -- then the ups are those of the directory, which are more
    rw [walk_components_relative, walk_parents_of_le (by omega), walk_names_relative] at hwalk
    have hups := (relative.inj hwalk).1
    omega
  · rintro ⟨rfl, hk⟩
    rw [walk_components_relative, walk_parents_of_ge hk, walk_names_relative, List.nil_append,
      Nat.add_sub_cancel' hk]

end Place

namespace Path

variable {d p q : Path}

/-- Whether `p` seen from `d` leads where `p` leads: `d` goes up as many
levels as it goes down again, and `p` at least as many. -/
def LeadsBack (d p : Path) : Prop :=
  ∃ ms k ns, d.place = .relative ms.length ms ∧ p.place = .relative k ns ∧ ms.length ≤ k

theorem normalize_inj : p.normalize = q.normalize ↔ p.place = q.place := by
  constructor
  · intro h
    have hplace := congrArg place h
    rwa [place_normalize, place_normalize] at hplace
  · intro h
    rw [normalize, h, normalize]

theorem place_join (d p : Path) : (d.join p).place = d.place.walk p.place.components := by
  rw [place_join_eq_walk, Place.walk_place]

/-- **A relative path is seen from a relative directory as it is** exactly
if it leads back. -/
theorem normalizeIn_eq_iff (hd : d.isAbsolute = false) (hp : p.isAbsolute = false) :
    normalizeIn d p = p.normalize ↔ LeadsBack d p := by
  obtain ⟨j, ms, hdplace⟩ := exists_place_of_relative hd
  obtain ⟨k, ns, hpplace⟩ := exists_place_of_relative hp
  rw [normalizeIn, normalize_inj, place_join, hdplace, hpplace, Place.walk_eq_iff]
  constructor
  · rintro ⟨rfl, hk⟩
    exact ⟨ms, k, ns, hdplace, hpplace, hk⟩
  · rintro ⟨ms', k', ns', hd', hp', hk⟩
    obtain ⟨rfl, rfl⟩ := Place.relative.inj (hdplace.symm.trans hd')
    obtain ⟨rfl, rfl⟩ := Place.relative.inj (hpplace.symm.trans hp')
    exact ⟨rfl, hk⟩

/-- **And so if the directory comes twice.** -/
theorem normalizeIn_join_eq_iff (hd : d.isAbsolute = false) (hp : p.isAbsolute = false) :
    normalizeIn d (d.join p) = p.normalize ↔ LeadsBack d p := by
  obtain ⟨j, ms, hdplace⟩ := exists_place_of_relative hd
  obtain ⟨k, ns, hpplace⟩ := exists_place_of_relative hp
  have htwice : (d.join (d.join p)).place =
      (d.place.walk d.place.components).walk p.place.components := by
    rw [place_join_eq_walk, Place.walk_components_join, Place.walk_place, Place.walk_place]
  constructor
  · intro hsame
    rw [normalizeIn, normalize_inj, htwice, hdplace, hpplace] at hsame
    obtain ⟨i, ls, honce, hsum⟩ := Place.exists_walk_components j j ms ms
    rw [honce] at hsame
    obtain ⟨hi, hle⟩ := Place.walk_eq_iff.1 hsame
    have hj : j = ms.length := by omega
    subst hj
    -- the directory leads back to itself, so once is enough
    rw [Place.walk_eq_iff.2 ⟨rfl, Nat.le_refl _⟩] at honce
    obtain ⟨-, rfl⟩ := Place.relative.inj honce
    exact ⟨ms, k, ns, hdplace, hpplace, hle⟩
  · rintro ⟨ms', k', ns', hd', hp', hk⟩
    rw [normalizeIn, normalize_inj, htwice, hd', hp', Place.walk_eq_iff.2 ⟨rfl, Nat.le_refl _⟩,
      Place.walk_eq_iff.2 ⟨rfl, hk⟩]

end Path

end CompileCommands
