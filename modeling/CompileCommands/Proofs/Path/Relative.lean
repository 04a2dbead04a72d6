import CompileCommands.Host.Paths
import CompileCommands.Proofs.Path.Canonical
/-!
# Relative paths

Following a relative path from the directory it was made for leads back
to the path it stands for: up from the directory to the last name that
both share, and down again.
-/

namespace CompileCommands

variable {h : Host} {p base : Path}

/-! ## Paths put together from components -/

namespace Path

theorem isProper_of_mem_components {x : Component} (hx : x ∈ p.components) : x.IsProper := by
  cases hp : p.isAbsolute with
  | true =>
    rw [components_of_absolute hp] at hx
    rcases List.mem_cons.1 hx with rfl | hx
    · trivial
    · exact isProper_of_mem_steps hx
  | false =>
    rw [components_of_relative hp] at hx
    rcases List.mem_append.1 hx with hx | hx
    · split at hx
      · rw [List.mem_singleton.1 hx]; trivial
      · exact absurd hx List.not_mem_nil
    · exact isProper_of_mem_steps hx

theorem root_mem_components_iff : Component.root ∈ p.components ↔ p.isAbsolute = true := by
  cases hp : p.isAbsolute with
  | true =>
    rw [components_of_absolute hp]
    exact ⟨fun _ => rfl, fun _ => List.mem_cons_self ..⟩
  | false =>
    rw [components_of_relative hp, List.mem_append]
    refine ⟨fun hroot => ?_, fun hfalse => by cases hfalse⟩
    rcases hroot with hroot | hroot
    · split at hroot
      · cases List.mem_singleton.1 hroot
      · exact absurd hroot List.not_mem_nil
    · exact absurd hroot p.root_not_mem_steps

/-- **Components put together make an absolute path** if the root is among
them. -/
theorem isAbsolute_joinAll {cs : List Component} (hcs : ∀ x ∈ cs, x.IsProper) (p : Path) :
    (p.joinAll cs).isAbsolute = true ↔ p.isAbsolute = true ∨ Component.root ∈ cs := by
  induction cs generalizing p with
  | nil => exact ⟨.inl, fun hp => hp.resolve_right List.not_mem_nil⟩
  | cons x cs ih =>
    obtain ⟨hx, hcs⟩ := List.forall_mem_cons.1 hcs
    have htext : (⟨x.text⟩ : Path).isAbsolute = true ↔ Component.root = x := by
      cases x with
      | root => exact ⟨fun _ => rfl, fun _ => rfl⟩
      | current => exact ⟨fun hc => (by cases hc), fun hc => (by cases hc)⟩
      | parent => exact ⟨fun hc => (by cases hc), fun hc => (by cases hc)⟩
      | name n =>
        have hname : (⟨n⟩ : Path).isAbsolute = false := isAbsolute_of_isName hx
        exact ⟨fun hc => (by cases hname.symm.trans hc), fun hc => (by cases hc)⟩
    change ((p.join ⟨x.text⟩).joinAll cs).isAbsolute = true ↔ _
    rw [ih hcs, isAbsolute_join, Bool.or_eq_true, htext, List.mem_cons, or_assoc]

/-- A component as a path of its own leads one step on. -/
theorem walk_components_text {c : Component} (hc : c.IsProper) (s : Place) :
    s.walk (⟨c.text⟩ : Path).components = s.step c := by
  cases c with
  | root => exact (Place.walk_components ⟨"/"⟩ s).trans Place.step_root.symm
  | current => exact (Place.walk_components ⟨"."⟩ s).trans Place.step_current.symm
  | parent => exact Place.walk_components ⟨".."⟩ s
  | name n =>
    change s.walk (⟨n⟩ : Path).components = _
    rw [Place.walk_components, isAbsolute_of_isName hc, if_neg Bool.false_ne_true,
      steps_of_isName hc]
    rfl

/-- **A path put together from components leads along them.** -/
theorem walk_components_joinAll {cs : List Component} (hcs : ∀ c ∈ cs, c.IsProper) (p : Path)
    (s : Place) : s.walk (p.joinAll cs).components = (s.walk p.components).walk cs := by
  induction cs generalizing p with
  | nil => rfl
  | cons c cs ih =>
    change s.walk ((p.join ⟨c.text⟩).joinAll cs).components = _
    rw [ih (fun d hd => hcs d (List.mem_cons_of_mem _ hd)), Place.walk_components_join,
      walk_components_text (hcs c (List.mem_cons_self ..)), Place.walk_cons]

/-- The last name of a canonical path is what its text ends in. -/
theorem exists_chars_toPath_concat (ns : List String) (n : String) :
    ∃ front, (Place.absolute (ns ++ [n])).toPath.chars = front ++ n.toList := by
  rw [Place.chars_toPath_absolute, List.map_append, List.map_singleton]
  by_cases hns : ns = []
  · exact ⟨['/'], by rw [hns, List.map_nil, List.nil_append, List.intercalate_singleton]; rfl⟩
  · rw [Text.intercalate_concat (fun hnil => hns (List.map_eq_nil_iff.1 hnil))]
    exact ⟨'/' :: (List.intercalate ['/'] (ns.map String.toList) ++ ['/']), rfl⟩

/-- **A name joined to a canonical path** makes a canonical path. -/
theorem join_name_toPath {ns : List String} {n : String} (hns : (Place.absolute ns).IsProper)
    (hn : Component.IsName n) :
    (Place.absolute ns).toPath.join ⟨n⟩ = (Place.absolute (ns ++ [n])).toPath := by
  suffices hchars : ((Place.absolute ns).toPath.join ⟨n⟩).chars =
      (Place.absolute (ns ++ [n])).toPath.chars from chars_inj.1 hchars
  rw [join, if_neg (by rw [isAbsolute_of_isName hn]; exact Bool.false_ne_true)]
  rcases List.eq_nil_or_concat' ns with rfl | ⟨ms, m, rfl⟩
  · -- the root ends in the separator
    rw [Place.chars_toPath_absolute, Place.chars_toPath_absolute]
    simp [chars, Place.toPath, Place.words, ofPieces, List.intercalate_singleton]
  · have hm : Component.IsName m := hns m (List.mem_append_right _ (List.mem_singleton_self m))
    obtain ⟨front, hfront⟩ := exists_chars_toPath_concat ms m
    obtain ⟨c, hc⟩ : ∃ c, m.toList.getLast? = some c :=
      ⟨_, List.getLast?_eq_some_getLast hm.ne_nil⟩
    have hlast : (Place.absolute (ms ++ [m])).toPath.chars.getLast? = some c := by
      rw [hfront, List.getLast?_append, hc]
      rfl
    have hslash : c ≠ '/' := fun hslash => hm.2 (hslash ▸ List.mem_of_getLast? hc)
    simp only [hlast, if_neg hslash]
    have htext : ∀ p : Path, (⟨p.text ++ "/" ++ n⟩ : Path).chars = p.chars ++ ['/'] ++ n.toList :=
      fun p => by simp [chars, String.toList_append]
    have hnames : (ms ++ [m] ++ [n]).map String.toList =
        (ms ++ [m]).map String.toList ++ [n.toList] := List.map_append
    rw [htext, Place.chars_toPath_absolute, Place.chars_toPath_absolute, hnames,
      Text.intercalate_concat (by simp)]
    simp

/-- Names joined to a canonical path one by one make a canonical path. -/
theorem joinAll_names_toPath {ms ns : List String} (hms : (Place.absolute ms).IsProper)
    (hns : (Place.absolute ns).IsProper) :
    (Place.absolute ms).toPath.joinAll (ns.map .name) = (Place.absolute (ms ++ ns)).toPath := by
  induction ns generalizing ms with
  | nil => rw [List.append_nil]; rfl
  | cons n ns ih =>
    obtain ⟨hn, hns⟩ := List.forall_mem_cons.1 hns
    have hstep : (Place.absolute ms).toPath.joinAll ((n :: ns).map .name) =
        ((Place.absolute ms).toPath.join ⟨n⟩).joinAll (ns.map .name) := rfl
    have hms' : ∀ m ∈ ms ++ [n], Component.IsName m :=
      List.forall_mem_append.2 ⟨hms, List.forall_mem_singleton.2 hn⟩
    rw [hstep, join_name_toPath hms hn, ih hms' hns, List.append_assoc, List.singleton_append]

/-- **A canonical path is put together from its components.** -/
theorem IsCanonical.joinAll_components {p : Path} (hp : p.IsCanonical) :
    empty.joinAll p.components = p := by
  obtain ⟨ns, rfl, hns⟩ := hp.exists_names
  rw [components_of_absolute hp.1, Place.steps_toPath_absolute hns]
  exact joinAll_names_toPath (fun m hm => absurd hm List.not_mem_nil) hns

end Path

namespace Host

/-! ## From the working directory -/

theorem isCanonical_absolutePath (hdir : h.directory ≠ none) (p : Path) :
    (h.absolutePath p).IsCanonical := by
  obtain ⟨d, hd⟩ := Option.ne_none_iff_exists'.1 hdir
  unfold absolutePath
  split
  · rename_i hp
    exact Path.isCanonical_normalize hp
  · rw [directoryPath, hd]
    exact Path.isCanonical_normalizeIn (Place.isAbsolute_toPath_absolute d) p

/-- **With a working directory** every path has a canonical form. -/
theorem isCanonical_logicalPath (hdir : h.directory ≠ none) (p : Path) :
    (h.logicalPath p).IsCanonical := by
  unfold logicalPath
  split
  · rename_i hp
    exact Path.isCanonical_normalize hp
  · split
    · dsimp only
      split
      · rename_i hlogical
        exact Path.isCanonical_normalizeIn (Bool.and_eq_true_iff.1 hlogical).1 p
      · exact isCanonical_absolutePath hdir p
    · exact isCanonical_absolutePath hdir p

/-- Without one a path keeps to itself. -/
theorem logicalPath_of_directory_eq_none (hdir : h.directory = none) (p : Path) :
    h.logicalPath p = p.normalize := by
  have hnames : ∀ q, h.namesDirectory q = false := by
    intro q
    rw [namesDirectory, hdir]
    cases h.locate q <;> rfl
  have habsolute : h.absolutePath p = p.normalize := by
    rw [absolutePath, directoryPath, hdir]
    exact ite_self _
  unfold logicalPath
  split
  · rfl
  · cases h.logicalDirectory with
    | none => exact habsolute
    | some text => simp only [hnames, Bool.and_false, habsolute, Bool.false_eq_true, if_false]

theorem logicalPath_of_isCanonical (hp : p.IsCanonical) : h.logicalPath p = p := by
  rw [logicalPath, if_pos hp.1, hp.2]

/-! ## Up and down again -/

open Component

variable {ns ms : List String} {k : Nat}

/-- Whether `k` is how many names `ns` and `ms` have in common from the
start. -/
structure Shares (k : Nat) (ns ms : List String) : Prop where
  take_eq : ns.take k = ms.take k
  le_left : k ≤ ns.length
  le_right : k ≤ ms.length
  most : ∀ ls, ls <+: ns → ls <+: ms → ls.length ≤ k

theorem shares_sharedLength (ns ms : List String) :
    Shares (sharedLength (ns.map .name) (ms.map .name)) ns ms := by
  induction ns generalizing ms with
  | nil => exact ⟨rfl, Nat.zero_le _, Nat.zero_le _, fun ls hls _ => hls.length_le⟩
  | cons n ns ih =>
    cases ms with
    | nil => exact ⟨rfl, Nat.zero_le _, Nat.zero_le _, fun ls _ hls => hls.length_le⟩
    | cons m ms =>
      by_cases hnm : n = m
      · subst hnm
        obtain ⟨htake, hleft, hright, hmost⟩ := ih ms
        rw [List.map_cons, List.map_cons, sharedLength, if_pos rfl]
        refine ⟨by simp [htake], by simpa using hleft, by simpa using hright, fun ls hns hms => ?_⟩
        cases ls with
        | nil => exact Nat.zero_le _
        | cons l ls =>
          have hrest := hmost ls (List.cons_prefix_cons.1 hns).2 (List.cons_prefix_cons.1 hms).2
          simpa using hrest
      · have hzero : sharedLength ((n :: ns).map .name) ((m :: ms).map .name) = 0 :=
          if_neg fun hname => hnm (Component.name.inj hname)
        rw [hzero]
        refine ⟨rfl, Nat.zero_le _, Nat.zero_le _, fun ls hns hms => ?_⟩
        cases ls with
        | nil => exact Nat.le_refl 0
        | cons l ls =>
          -- a name that both start with is the first of each
          have hl := (List.cons_prefix_cons.1 hns).1
          exact absurd (hl.symm.trans (List.cons_prefix_cons.1 hms).1) hnm

/-- Going up drops names from the end. -/
theorem walk_parents_absolute (j : Nat) (ms : List String) :
    (Place.absolute ms).walk (List.replicate j .parent) =
      .absolute (ms.take (ms.length - j)) := by
  induction j generalizing ms with
  | zero => simp [Place.walk_nil]
  | succ j ih =>
    rw [List.replicate_succ, Place.walk_cons]
    refine (ih ms.dropLast).trans ?_
    rw [List.dropLast_eq_take, List.take_take, List.length_take]
    congr 2
    omega

/-- **Up to what is shared and down again.** -/
theorem walk_up_and_down (hk : Shares k ns ms) :
    (Place.absolute ms).walk (List.replicate (ms.length - k) .parent ++ (ns.drop k).map .name) =
      .absolute ns := by
  rw [Place.walk_append, walk_parents_absolute, Place.walk_names_absolute,
    Nat.sub_sub_self hk.le_right, ← hk.take_eq, List.take_append_drop]

theorem components_absolute_toPath (hns : (Place.absolute ns).IsProper) :
    (Place.absolute ns).toPath.components = .root :: ns.map .name := by
  rw [Path.components_of_absolute (Place.isAbsolute_toPath_absolute ns),
    Place.steps_toPath_absolute hns]

/-- **A relative path between canonical paths** is an up for each name of
the directory that is not shared, and then the names of the path that are
not. -/
theorem relativePath_eq (hp : h.absolutePath p = (Place.absolute ns).toPath)
    (hb : h.absolutePath base = (Place.absolute ms).toPath)
    (hns : (Place.absolute ns).IsProper) (hms : (Place.absolute ms).IsProper)
    (hk : sharedLength (ns.map .name) (ms.map .name) = k) :
    h.relativePath p base =
      let steps := List.replicate (ms.length - k) Component.parent ++ (ns.drop k).map .name
      if steps.isEmpty then ⟨"."⟩ else Path.empty.joinAll steps := by
  -- the root is shared as well, so one component more than there are names
  have hshared : sharedLength (.root :: ns.map .name) (.root :: ms.map .name) = k + 1 := by
    rw [sharedLength, if_pos rfl, hk]
  simp only [relativePath, hp, hb, components_absolute_toPath hns, components_absolute_toPath hms,
    hshared, List.length_cons, List.length_map, Nat.add_sub_add_right, List.drop_succ_cons,
    ← List.map_drop]

/-- **A relative path leads from the directory it was made for to the path
it stands for.** -/
theorem walk_relativePath (hp : h.absolutePath p = (Place.absolute ns).toPath)
    (hb : h.absolutePath base = (Place.absolute ms).toPath)
    (hns : (Place.absolute ns).IsProper) (hms : (Place.absolute ms).IsProper) :
    (Place.absolute ms).walk (h.relativePath p base).components = .absolute ns := by
  have hupdown := walk_up_and_down (shares_sharedLength ns ms)
  rw [relativePath_eq hp hb hns hms rfl]
  generalize sharedLength (ns.map .name) (ms.map .name) = k at hupdown ⊢
  dsimp only
  split
  · -- nothing to go up or down, and the path is written `.`
    rename_i hempty
    rw [List.isEmpty_iff.1 hempty] at hupdown
    exact hupdown
  · have hproper : ∀ c ∈ List.replicate (ms.length - k) Component.parent ++
        (ns.drop k).map .name, c.IsProper := by
      intro c hc
      rcases List.mem_append.1 hc with hc | hc
      · rw [List.eq_of_mem_replicate hc]; trivial
      · obtain ⟨n, hn, rfl⟩ := List.mem_map.1 hc
        exact hns n (List.mem_of_mem_drop hn)
    rw [Path.walk_components_joinAll hproper]
    exact hupdown

/-- The relative path to a canonical one, seen from its directory, is that
path again. -/
theorem normalizeIn_relativePath (hp : p.IsCanonical) (hb : base.isAbsolute = true) :
    Path.normalizeIn base (h.relativePath p base) = p := by
  obtain ⟨ns, hpath, hns⟩ := hp.exists_names
  obtain ⟨ms, hplace, hms⟩ := Path.exists_place_of_absolute hb
  have hwalk : (Place.absolute ms).walk (h.relativePath p base).components = .absolute ns := by
    refine walk_relativePath ?_ ?_ hns hms
    · rw [absolutePath, if_pos hp.1, hp.2, hpath]
    · rw [absolutePath, if_pos hb, Path.normalize, hplace]
  have hjoined : (base.join (h.relativePath p base)).place = .absolute ns := by
    rw [Path.place_join_eq_walk, hplace, hwalk]
  rw [Path.normalizeIn, Path.normalize, hjoined, hpath]

/-- A relative path that has become absolute leads through the root, and
so to the path it stands for. -/
theorem normalize_relativePath_of_isAbsolute (hp : p.IsCanonical)
    (habs : (h.relativePath p base).isAbsolute = true) :
    (h.relativePath p base).normalize = p := by
  obtain ⟨ns, hpath, hns⟩ := hp.exists_names
  have hcomponents : (h.absolutePath p).components = .root :: ns.map .name := by
    rw [absolutePath, if_pos hp.1, hp.2, hpath, components_absolute_toPath hns]
  rw [relativePath, hcomponents] at habs ⊢
  generalize (h.absolutePath base).components = bs at habs ⊢
  generalize sharedLength (.root :: ns.map .name) bs = k at habs ⊢
  have hproper : ∀ c ∈ List.replicate (bs.length - k) Component.parent ++
      (.root :: ns.map .name : List Component).drop k, c.IsProper := by
    intro c hc
    rcases List.mem_append.1 hc with hc | hc
    · rw [List.eq_of_mem_replicate hc]; trivial
    · rcases List.mem_cons.1 (List.mem_of_mem_drop hc) with rfl | hc
      · trivial
      · obtain ⟨n, hn, rfl⟩ := List.mem_map.1 hc
        exact hns n hn
  split at habs
  · cases habs
  rename_i hne
  rw [if_neg hne]
  have hplace := Path.walk_components_joinAll hproper Path.empty Place.here
  rw [show Place.here.walk Path.empty.components = Place.here from rfl] at hplace
  cases k with
  | zero =>
    -- all goes down from the root
    have hdown : Place.here.walk (List.replicate (bs.length - 0) Component.parent ++
        (.root :: ns.map .name : List Component).drop 0) = .absolute ns := by
      rw [Place.walk_append, List.drop_zero, Place.walk_cons, Place.step_root,
        Place.walk_names_absolute, List.nil_append]
    rw [hdown] at hplace
    rw [Path.normalize, Path.place, hplace, hpath]
  | succ k =>
    -- no step is the root, so the path would be relative
    have hroot : Component.root ∉ List.replicate (bs.length - (k + 1)) Component.parent ++
        (.root :: ns.map .name : List Component).drop (k + 1) := by
      intro hroot
      rcases List.mem_append.1 hroot with hroot | hroot
      · cases List.eq_of_mem_replicate hroot
      · obtain ⟨n, -, hn⟩ := List.mem_map.1 (List.mem_of_mem_drop hroot)
        cases hn
    obtain ⟨j, ms, hwalk⟩ := Place.exists_walk_relative hroot 0 []
    obtain ⟨qs, hqs, -⟩ := Path.exists_place_of_absolute habs
    have hsame : Place.relative j ms = .absolute qs := by
      rw [← hwalk, ← hqs]
      exact hplace.symm
    cases hsame

end Host

end CompileCommands
