import CompileCommands.Proofs.Path.Ancestors
import CompileCommands.Proofs.Path.Back
/-!
# Relative paths and back

A relative path is an answer to how one gets from a directory to a path.
It is the right one (`normalizeIn_relativePath`), it is relative wherever
both are known absolutely (`isAbsolute_relativePath`), and no other goes
up less often, for every name of the directory that the path does not
share has to be left (`take_prefix_of_walk`). The short form of messages
is the relative one where at most one name is left, which is where the
two meet in the working directory or right above it.
-/

namespace CompileCommands

variable {h : Host} {p q base : Path} {ns ms : List String} {k : Nat}

/-! ## How often a path goes up -/

namespace Path

/-- How many levels a path goes up. -/
def ups (p : Path) : Nat := p.components.count .parent

/-- Where a path leads from a canonical directory. -/
theorem normalizeIn_toPath (hms : (Place.absolute ms).IsProper)
    (hns : (Place.absolute ns).IsProper) :
    normalizeIn (Place.absolute ms).toPath q = (Place.absolute ns).toPath ↔
      (Place.absolute ms).walk q.components = .absolute ns := by
  have hplace : ((Place.absolute ms).toPath.join q).place =
      (Place.absolute ms).walk q.components := by
    rw [place_join_eq_walk, Place.place_toPath hms]
  have hproper := Place.isProper_place ((Place.absolute ms).toPath.join q)
  rw [normalizeIn, normalize, hplace]
  rw [hplace] at hproper
  obtain ⟨ls, hls⟩ := Place.exists_walk_absolute ms q.components
  rw [hls] at hproper ⊢
  rw [toPath_absolute_inj hproper hns, Place.absolute.injEq]

end Path

/-- **Every name that is not kept is left by going up**: as many of the
first names are kept as there are no steps up for. -/
theorem Place.take_prefix_of_walk {cs : List Component} (hcs : Component.root ∉ cs)
    (hwalk : (absolute ms).walk cs = absolute ns) :
    ms.take (ms.length - cs.count .parent) <+: ns := by
  induction cs generalizing ms with
  | nil =>
    obtain rfl := absolute.inj hwalk
    exact List.take_prefix ..
  | cons c cs ih =>
    rw [List.mem_cons, not_or] at hcs
    obtain ⟨hne, hcs⟩ := hcs
    have hrest : ∀ ls, (absolute ls).walk cs = absolute ns →
        ls.take (ls.length - cs.count .parent) <+: ns := fun ls hls => ih hcs hls
    cases c with
    | root => exact absurd rfl hne
    | current =>
      rw [List.count_cons_of_ne (by decide)]
      exact hrest ms hwalk
    | parent =>
      have hup := hrest ms.dropLast hwalk
      rw [List.dropLast_eq_take, List.take_take, List.length_take] at hup
      rw [List.count_cons_self]
      have hkept : min (min (ms.length - 1) ms.length - cs.count .parent) (ms.length - 1) =
          ms.length - (cs.count .parent + 1) := by omega
      rwa [hkept] at hup
    | name n =>
      have hdown := hrest (ms ++ [n]) hwalk
      rw [List.count_cons_of_ne (by intro hc; cases hc)]
      refine List.IsPrefix.trans ?_ hdown
      have hinitial := List.prefix_append ms [n]
      rw [List.length_append, List.length_singleton]
      refine (List.prefix_take_iff.2 ⟨(List.take_prefix _ ms).trans hinitial, ?_⟩)
      rw [List.length_take]
      omega

namespace Host

/-! ## When a relative path is none -/

theorem isAbsolute_absolutePath :
    (h.absolutePath p).isAbsolute = true ↔ p.isAbsolute = true ∨ h.directory ≠ none := by
  cases hp : p.isAbsolute with
  | true =>
    rw [absolutePath, if_pos hp, Path.isAbsolute_normalize]
    exact ⟨fun _ => .inl rfl, fun _ => hp⟩
  | false =>
    have hrel : (h.absolutePath p).isAbsolute = true ↔ h.directory ≠ none := by
      rw [absolutePath, if_neg (by rw [hp]; exact Bool.false_ne_true), directoryPath]
      cases h.directory with
      | none =>
        change p.normalize.isAbsolute = true ↔ _
        rw [Path.isAbsolute_normalize, hp]
        exact ⟨fun hc => (by cases hc), fun hc => absurd rfl hc⟩
      | some l =>
        have habs := (Path.isCanonical_normalizeIn (Place.isAbsolute_toPath_absolute l) p).1
        exact ⟨fun _ => Option.some_ne_none l, fun _ => habs⟩
    rw [hrel]
    exact ⟨.inr, fun hc => hc.resolve_left Bool.false_ne_true⟩

/-- The steps from one path to another lead through the root only from a
path that is not absolute to one that is. -/
theorem root_mem_steps_iff (p base : Path) {k : Nat}
    (hk : k = sharedLength p.components base.components) :
    Component.root ∈ List.replicate (base.components.length - k) .parent ++ p.components.drop k ↔
      p.isAbsolute = true ∧ base.isAbsolute = false := by
  have hups : Component.root ∉ List.replicate (base.components.length - k) Component.parent :=
    fun hroot => by cases List.eq_of_mem_replicate hroot
  rw [List.mem_append, or_iff_right hups]
  cases hp : p.isAbsolute with
  | false =>
    refine ⟨fun hroot => ?_, fun hfalse => (by cases hfalse.1)⟩
    have hcomponent := Path.root_mem_components_iff.1 (List.mem_of_mem_drop hroot)
    cases hp.symm.trans hcomponent
  | true =>
    have hcomponents := Path.components_of_absolute hp
    cases hbase : base.isAbsolute with
    | true =>
      -- the root is shared, and is no step
      rw [hcomponents, Path.components_of_absolute hbase, sharedLength, if_pos rfl] at hk
      rw [hcomponents, hk, List.drop_succ_cons]
      refine ⟨fun hroot => ?_, fun hfalse => (by cases hfalse.2)⟩
      exact absurd (List.mem_of_mem_drop hroot) p.root_not_mem_steps
    | false =>
      have hnone : Component.root ∉ base.components := fun hroot => by
        cases hbase.symm.trans (Path.root_mem_components_iff.1 hroot)
      have hzero : k = 0 := by
        rw [hk, hcomponents]
        cases hbs : base.components with
        | nil => rfl
        | cons x xs =>
          rw [hbs, List.mem_cons, not_or] at hnone
          rw [sharedLength, if_neg hnone.1]
      rw [hzero, List.drop_zero, hcomponents]
      exact ⟨fun _ => ⟨rfl, rfl⟩, fun _ => List.mem_cons_self ..⟩

/-- **A relative path is absolute** only from a directory whose absolute
form is not known. -/
theorem isAbsolute_relativePath : (h.relativePath p base).isAbsolute = true ↔
    (h.absolutePath p).isAbsolute = true ∧ (h.absolutePath base).isAbsolute = false := by
  rw [← root_mem_steps_iff _ _ rfl, relativePath]
  split
  · rename_i hempty
    rw [List.isEmpty_iff.1 hempty]
    exact ⟨fun hdot => (by cases hdot), fun hroot => absurd hroot List.not_mem_nil⟩
  · rw [Path.isAbsolute_joinAll]
    · exact or_iff_right fun hempty => (by cases hempty)
    · intro x hx
      rcases List.mem_append.1 hx with hx | hx
      · rw [List.eq_of_mem_replicate hx]; trivial
      · exact Path.isProper_of_mem_components (List.mem_of_mem_drop hx)

/-! ## Between absolute paths -/

theorem components_relativePath (hp : h.absolutePath p = (Place.absolute ns).toPath)
    (hb : h.absolutePath base = (Place.absolute ms).toPath)
    (hns : (Place.absolute ns).IsProper) (hms : (Place.absolute ms).IsProper)
    (hk : sharedLength (ns.map .name) (ms.map .name) = k) :
    (h.relativePath p base).components =
      let steps := List.replicate (ms.length - k) Component.parent ++ (ns.drop k).map .name
      if steps.isEmpty then [.current] else steps := by
  rw [relativePath_eq hp hb hns hms hk]
  dsimp only
  split
  · rfl
  · refine (Path.components_joinAll_steps (fun c hc => ?_) Path.empty).trans (List.nil_append _)
    rcases List.mem_append.1 hc with hc | hc
    · rw [List.eq_of_mem_replicate hc]
      decide
    · obtain ⟨n, hn, rfl⟩ := List.mem_map.1 hc
      exact hns n (List.mem_of_mem_drop hn)

/-- **A relative path goes up once** for each name of the directory that
the path does not share. -/
theorem ups_relativePath (hp : h.absolutePath p = (Place.absolute ns).toPath)
    (hb : h.absolutePath base = (Place.absolute ms).toPath)
    (hns : (Place.absolute ns).IsProper) (hms : (Place.absolute ms).IsProper)
    (hk : sharedLength (ns.map .name) (ms.map .name) = k) :
    (h.relativePath p base).ups = ms.length - k := by
  have hnames : ((ns.drop k).map Component.name).count .parent = 0 := by
    refine List.count_eq_zero.2 fun hmem => ?_
    obtain ⟨n, -, hn⟩ := List.mem_map.1 hmem
    cases hn
  have hcount : (List.replicate (ms.length - k) Component.parent ++
      (ns.drop k).map Component.name).count .parent = ms.length - k := by
    rw [List.count_append, List.count_replicate_self, hnames, Nat.add_zero]
  rw [Path.ups, components_relativePath hp hb hns hms hk]
  dsimp only
  split
  · rename_i hempty
    rw [List.isEmpty_iff.1 hempty] at hcount
    exact hcount
  · exact hcount

/-- A relative path starts with two steps up if it has two at all. -/
theorem startsWith_relativePath (hp : h.absolutePath p = (Place.absolute ns).toPath)
    (hb : h.absolutePath base = (Place.absolute ms).toPath)
    (hns : (Place.absolute ns).IsProper) (hms : (Place.absolute ms).IsProper)
    (hk : sharedLength (ns.map .name) (ms.map .name) = k) :
    (h.relativePath p base).startsWith ⟨"../.."⟩ = true ↔ 2 ≤ ms.length - k := by
  have hups := ups_relativePath hp hb hns hms hk
  have htwo : (⟨"../.."⟩ : Path).components = [.parent, .parent] := by decide
  rw [Path.startsWith, htwo, List.isPrefixOf_iff_prefix]
  constructor
  · intro hprefix
    rw [← hups]
    exact hprefix.sublist.count_le .parent
  · intro hle
    obtain ⟨j, hj⟩ := Nat.exists_eq_add_of_le hle
    rw [components_relativePath hp hb hns hms hk, hj, List.replicate_add]
    exact ⟨_, rfl⟩

/-- **No relative path goes up less often** and leads to the same path. -/
theorem ups_relativePath_le (hp : h.absolutePath p = (Place.absolute ns).toPath)
    (hb : h.absolutePath base = (Place.absolute ms).toPath)
    (hns : (Place.absolute ns).IsProper) (hms : (Place.absolute ms).IsProper)
    (hq : q.isAbsolute = false)
    (hleads : Path.normalizeIn (h.absolutePath base) q = h.absolutePath p) :
    (h.relativePath p base).ups ≤ q.ups := by
  rw [hp, hb, Path.normalizeIn_toPath hms hns] at hleads
  have hroot : Component.root ∉ q.components := fun hroot => by
    cases hq.symm.trans (Path.root_mem_components_iff.1 hroot)
  have hkept := Place.take_prefix_of_walk hroot hleads
  have hmost := (shares_sharedLength ns ms).most _ hkept (List.take_prefix ..)
  rw [List.length_take] at hmost
  rw [ups_relativePath hp hb hns hms rfl, Path.ups]
  omega

/-! ## From the working directory -/

section WorkingDirectory

variable {d : Path}

theorem isAbsolute_directoryPath (hd : h.directoryPath = some d) : d.isAbsolute = true := by
  obtain ⟨l, -, rfl⟩ := Option.map_eq_some_iff.1 hd
  exact Place.isAbsolute_toPath_absolute l

theorem isCanonical_absolutePath_of_directoryPath (hd : h.directoryPath = some d) (p : Path) :
    (h.absolutePath p).IsCanonical := by
  refine isCanonical_absolutePath (fun hnone => ?_) p
  rw [directoryPath, hnone] at hd
  cases hd

theorem absolutePath_of_isCanonical (hp : p.IsCanonical) : h.absolutePath p = p := by
  rw [absolutePath, if_pos hp.1, hp.2]

/-- **The short form leads to the path** that it is the short form of. -/
theorem absolutePath_shorten (hd : h.directoryPath = some d) (p : Path) :
    h.absolutePath (h.shorten p) = h.absolutePath p := by
  have hfull := isCanonical_absolutePath_of_directoryPath hd p
  have habs := isAbsolute_directoryPath hd
  rw [shorten, hd]
  dsimp only
  split
  · exact absolutePath_of_isCanonical hfull
  · cases hrel : (h.relativePath (h.absolutePath p) d).isAbsolute with
    | true =>
      -- the working directory is absolute, so this does not happen
      have hnone := (isAbsolute_relativePath.1 hrel).2
      rw [absolutePath, if_pos habs, Path.isAbsolute_normalize, habs] at hnone
      cases hnone
    | false =>
      have hseen : h.absolutePath (h.relativePath (h.absolutePath p) d) =
          Path.normalizeIn d (h.relativePath (h.absolutePath p) d) := by
        rw [absolutePath, if_neg (by rw [hrel]; exact Bool.false_ne_true), hd]
      rw [hseen, normalizeIn_relativePath hfull habs]

/-- A list that is no more than one longer than its first elements. -/
theorem length_sub_le_one_iff (hk : k ≤ ms.length) :
    ms.length - k ≤ 1 ↔ ms.take k = ms ∨ ∃ n, ms = ms.take k ++ [n] := by
  constructor
  · intro hle
    rcases Nat.lt_or_ge k ms.length with hlt | hge
    · have hone : (ms.drop k).length = 1 := by
        rw [List.length_drop]
        omega
      obtain ⟨n, hn⟩ := List.length_eq_one_iff.1 hone
      exact .inr ⟨n, by rw [← hn, List.take_append_drop]⟩
    · exact .inl (List.take_of_length_le hge)
  · intro hcases
    have hlength : (ms.take k).length = k := by rw [List.length_take, Nat.min_eq_left hk]
    rcases hcases with hall | ⟨n, hn⟩
    · rw [hall] at hlength
      omega
    · have hconcat := congrArg List.length hn
      rw [List.length_append, hlength, List.length_singleton] at hconcat
      omega

/-- **The short form is relative** exactly if the path and the working
directory meet there or right above it. -/
theorem isAbsolute_shorten (hd : h.directoryPath = some d) (p : Path) :
    ∃ a : Path, a.IsLongestCommonAncestor (h.absolutePath p) d.normalize ∧
      ((h.shorten p).isAbsolute = false ↔ a = d.normalize ∨ d.normalize.parent? = some a) := by
  have hfull := isCanonical_absolutePath_of_directoryPath hd p
  have habs := isAbsolute_directoryPath hd
  have hbase : h.absolutePath d = d.normalize := if_pos habs
  obtain ⟨ns, hpath, hns⟩ := hfull.exists_names
  obtain ⟨ms, hnormal, hms⟩ := (Path.isCanonical_normalize habs).exists_names
  obtain ⟨k, hk⟩ : ∃ k, sharedLength (ns.map .name) (ms.map .name) = k := ⟨_, rfl⟩
  have hshares : Shares k ns ms := hk ▸ shares_sharedLength ns ms
  have hms' : (Place.absolute (ms.take k)).IsProper := fun m hm => hms m (List.mem_of_mem_take hm)
  refine ⟨(Place.absolute (ms.take k)).toPath, ?_, ?_⟩
  · rw [hpath, hnormal]
    refine Path.isLongestCommonAncestor_toPath hns hms
      (hshares.take_eq ▸ List.take_prefix ..) (List.take_prefix ..) fun ks hks hks' => ?_
    rw [List.length_take, Nat.min_eq_left hshares.le_right]
    exact hshares.most ks hks hks'
  · rw [hnormal, Path.toPath_absolute_inj hms' hms, Path.parent?_toPath_eq_some hms hms',
      ← length_sub_le_one_iff hshares.le_right]
    have hstarts := startsWith_relativePath ((absolutePath_of_isCanonical hfull).trans hpath)
      (hbase.trans hnormal) hns hms hk
    have hrelative : (h.relativePath (h.absolutePath p) d).isAbsolute = false := by
      rw [← Bool.not_eq_true, isAbsolute_relativePath, hbase, Path.isAbsolute_normalize, habs]
      exact fun hnone => Bool.false_ne_true hnone.2.symm
    rw [shorten, hd]
    dsimp only
    split
    · rename_i htwo
      have hle := hstarts.1 htwo
      rw [hfull.1]
      exact ⟨fun hfalse => (by cases hfalse), fun hone => (by omega)⟩
    · rename_i htwo
      rw [hstarts] at htwo
      exact ⟨fun _ => by omega, fun _ => hrelative⟩

end WorkingDirectory

/-! ## There and back -/

/-- An absolute form is canonical, where there is one. -/
theorem isCanonical_absolutePath_of_isAbsolute (hp : (h.absolutePath p).isAbsolute = true) :
    (h.absolutePath p).IsCanonical := by
  refine ⟨hp, ?_⟩
  unfold absolutePath
  split
  · exact Path.normalize_normalize p
  · split <;> exact Path.normalize_normalize _

/-- **A relative path and its directory** make the path again, with the
fewest steps up that do. So the short form of a path leads to it, and is
relative exactly if it meets the working directory there or right above
it. -/
theorem relativePath_inverse (h : Host) :
    (∀ p base, (h.absolutePath p).isAbsolute = true → (h.absolutePath base).isAbsolute = true →
      Path.normalizeIn (h.absolutePath base) (h.relativePath p base) = h.absolutePath p ∧
      (h.relativePath p base).isAbsolute = false ∧
      ∀ q : Path, q.isAbsolute = false →
        Path.normalizeIn (h.absolutePath base) q = h.absolutePath p →
        (h.relativePath p base).ups ≤ q.ups) ∧
    ∀ d, h.directoryPath = some d → ∀ p,
      h.absolutePath (h.shorten p) = h.absolutePath p ∧
      ∃ a : Path, a.IsLongestCommonAncestor (h.absolutePath p) d.normalize ∧
        ((h.shorten p).isAbsolute = false ↔
          a = d.normalize ∨ d.normalize.parent? = some a) := by
  refine ⟨fun p base hp hb => ?_,
    fun d hd p => ⟨absolutePath_shorten hd p, isAbsolute_shorten hd p⟩⟩
  obtain ⟨ns, hpath, hns⟩ := (isCanonical_absolutePath_of_isAbsolute hp).exists_names
  obtain ⟨ms, hbase, hms⟩ := (isCanonical_absolutePath_of_isAbsolute hb).exists_names
  have hwalk := walk_relativePath hpath hbase hns hms
  refine ⟨?_, ?_, fun q hq hleads => ups_relativePath_le hpath hbase hns hms hq hleads⟩
  · rw [hpath, hbase, Path.normalizeIn_toPath hms hns]
    exact hwalk
  · rw [← Bool.not_eq_true, isAbsolute_relativePath, hb]
    exact fun hnone => Bool.false_ne_true hnone.2.symm

end Host

/-! ## Two levels below the root -/

namespace SecondLevel

/-- The directory in which a project is built. -/
def tree : FileTree where
  entries := [(["w"], .directory), (["w", "b"], .directory)]
  distinct := by simp
  proper := by simp; decide
  closed := by simp

def host : Host := ⟨tree, some ["w", "b"], none, none, none⟩

/-- A file next to the working directory, and one further away. -/
theorem relativePath_inverse_build :
    Path.normalizeIn (host.absolutePath ⟨"x"⟩) (host.relativePath ⟨"../a"⟩ ⟨"x"⟩) = ⟨"/w/a"⟩ ∧
      (host.relativePath ⟨"../a"⟩ ⟨"x"⟩).ups ≤ (⟨"../../../w/a"⟩ : Path).ups ∧
      host.absolutePath (host.shorten ⟨"../a"⟩) = ⟨"/w/a"⟩ ∧
      host.shorten ⟨"../a"⟩ = ⟨"../a"⟩ ∧ host.shorten ⟨"/a"⟩ = ⟨"/a"⟩ := by
  obtain ⟨hinverse, hshort⟩ := Host.relativePath_inverse host
  have hfull : host.absolutePath ⟨"../a"⟩ = ⟨"/w/a"⟩ := by decide
  have hbase : host.absolutePath ⟨"x"⟩ = ⟨"/w/b/x"⟩ := by decide
  obtain ⟨hjoined, -, hfewest⟩ := hinverse ⟨"../a"⟩ ⟨"x"⟩ (by decide) (by decide)
  have hother : Path.normalizeIn (host.absolutePath ⟨"x"⟩) ⟨"../../../w/a"⟩ =
      host.absolutePath ⟨"../a"⟩ := by
    rw [hbase, hfull]
    decide
  have hseen := (hshort ⟨"/w/b"⟩ (by decide) ⟨"../a"⟩).1
  exact ⟨hjoined.trans hfull, hfewest _ (by decide) hother, hseen.trans hfull, by decide,
    by decide⟩

end SecondLevel

end CompileCommands
