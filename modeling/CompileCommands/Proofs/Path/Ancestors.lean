import CompileCommands.Proofs.Path.Relative
import CompileCommands.Proofs.Path.Spelled
/-!
# The directories above a path

The directories above a canonical path are the canonical paths with fewer
of its names (`mem_ancestors_toPath`). Those that two paths share are
therefore the common prefixes of their names, and the longest of them has
the names that the two start with (`isNearestShared_toPath`).
-/

namespace CompileCommands

variable {p q : Path} {ns ms : List String} {n : String} {k : Nat}

namespace Path

/-! ## One directory up -/

theorem trimPieces_names {ns : List String} (hns : ∀ n ∈ ns, Component.IsName n) :
    trimPieces (ns.map String.toList) = ns.map String.toList := by
  refine List.rdropWhile_eq_self_iff.2 fun hne => ?_
  obtain ⟨n, hn, hlast⟩ := List.mem_map.1 (List.getLast_mem hne)
  rw [← hlast, isIdle, (hns n hn).1]
  exact Bool.false_ne_true

theorem lead_toPath_absolute (ns : List String) : (Place.absolute ns).toPath.lead = some .root := by
  rw [lead, Place.chars_toPath_absolute]
  rfl

theorem pieces_toPath_absolute (hns : (Place.absolute ns).IsProper) (hne : ns ≠ []) :
    (Place.absolute ns).toPath.pieces = ns.map String.toList := by
  rw [pieces, Place.chars_toPath_absolute]
  refine Text.fields_intercalate (fun hnil => hne (List.map_eq_nil_iff.1 hnil)) fun piece hpiece =>
    ?_
  obtain ⟨n, hn, rfl⟩ := List.mem_map.1 hpiece
  exact (hns n hn).2

theorem parent?_toPath_root : (Place.absolute []).toPath.parent? = none := by decide

/-- **The parent of a canonical path** has its names but the last. -/
theorem parent?_toPath_concat (hns : (Place.absolute (ns ++ [n])).IsProper) :
    (Place.absolute (ns ++ [n])).toPath.parent? = some (Place.absolute ns).toPath := by
  have hpieces := pieces_toPath_absolute hns (List.concat_ne_nil n ns)
  have htrim : trimPieces (Place.absolute (ns ++ [n])).toPath.pieces =
      ns.map String.toList ++ [n.toList] := by
    rw [hpieces, trimPieces_names hns, List.map_append, List.map_singleton]
  have hfront : trimPieces (ns.map String.toList) = ns.map String.toList :=
    trimPieces_names fun m hm => hns m (List.mem_append_left _ hm)
  rw [parent?, lead_toPath_absolute, htrim]
  split
  · rename_i hnil _
    exact absurd hnil (List.concat_ne_nil _ _)
  · rename_i hnil _
    exact absurd hnil (List.concat_ne_nil _ _)
  · rw [List.dropLast_concat, hfront]
    rfl

/-! ## All the way up -/

theorem mem_ancestorsUpTo_toPath (hns : (Place.absolute ns).IsProper) (hk : ns.length ≤ k) :
    q ∈ ancestorsUpTo k (Place.absolute ns).toPath ↔
      ∃ ms, ms <+: ns ∧ q = (Place.absolute ms).toPath := by
  induction k generalizing ns with
  | zero =>
    obtain rfl := List.eq_nil_of_length_eq_zero (Nat.le_zero.1 hk)
    simp [ancestorsUpTo]
  | succ k ih =>
    rw [ancestorsUpTo]
    rcases List.eq_nil_or_concat' ns with rfl | ⟨ms, n, rfl⟩
    · rw [parent?_toPath_root]
      simp
    · have hms : (Place.absolute ms).IsProper := fun m hm => hns m (List.mem_append_left _ hm)
      have hlength : ms.length ≤ k := by simpa using hk
      rw [parent?_toPath_concat hns]
      simp only [List.mem_cons, ih hms hlength, List.prefix_concat_iff]
      constructor
      · rintro (rfl | ⟨ls, hls, rfl⟩)
        · exact ⟨_, .inl rfl, rfl⟩
        · exact ⟨ls, .inr hls, rfl⟩
      · rintro ⟨ls, rfl | hls, rfl⟩
        · exact .inl rfl
        · exact .inr ⟨ls, hls, rfl⟩

theorem length_components_toPath (hns : (Place.absolute ns).IsProper) :
    (Place.absolute ns).toPath.components.length = ns.length + 1 := by
  rw [Host.components_absolute_toPath hns, List.length_cons, List.length_map]

/-- **The directories above a canonical path** are the canonical paths of
its first names. -/
theorem mem_ancestors_toPath (hns : (Place.absolute ns).IsProper) :
    q ∈ (Place.absolute ns).toPath.ancestors ↔
      ∃ ms, ms <+: ns ∧ q = (Place.absolute ms).toPath := by
  have hlength : ns.length ≤ (Place.absolute ns).toPath.components.length := by
    rw [length_components_toPath hns]
    omega
  exact mem_ancestorsUpTo_toPath hns hlength

theorem toPath_absolute_inj (hns : (Place.absolute ns).IsProper)
    (hms : (Place.absolute ms).IsProper) :
    (Place.absolute ns).toPath = (Place.absolute ms).toPath ↔ ns = ms := by
  refine ⟨fun hpath => ?_, fun hsame => by rw [hsame]⟩
  have hplace := congrArg place hpath
  rw [Place.place_toPath hns, Place.place_toPath hms] at hplace
  exact Place.absolute.inj hplace

theorem parent?_toPath_eq_some (hms : (Place.absolute ms).IsProper)
    (hns : (Place.absolute ns).IsProper) :
    (Place.absolute ms).toPath.parent? = some (Place.absolute ns).toPath ↔ ∃ n, ms = ns ++ [n] := by
  constructor
  · intro hparent
    rcases List.eq_nil_or_concat' ms with rfl | ⟨ls, n, rfl⟩
    · rw [parent?_toPath_root] at hparent
      cases hparent
    · have hls : (Place.absolute ls).IsProper := fun m hm => hms m (List.mem_append_left _ hm)
      rw [parent?_toPath_concat hms, Option.some_inj, toPath_absolute_inj hls hns] at hparent
      exact ⟨n, by rw [hparent]⟩
  · rintro ⟨n, rfl⟩
    exact parent?_toPath_concat hms

/-! ## What two paths share -/

/-- Whether `a` is the longest of the paths that are at or above both `p`
and `q`. -/
structure IsLongestCommonAncestor (a p q : Path) : Prop where
  above : a ∈ p.ancestors ∧ a ∈ q.ancestors
  longest : ∀ b ∈ p.ancestors, b ∈ q.ancestors → b.components.length ≤ a.components.length

/-- **The longest common ancestor** of canonical paths has the names that
both start with. -/
theorem isLongestCommonAncestor_toPath {ls : List String} (hns : (Place.absolute ns).IsProper)
    (hms : (Place.absolute ms).IsProper) (hleft : ls <+: ns) (hright : ls <+: ms)
    (hmost : ∀ ks, ks <+: ns → ks <+: ms → ks.length ≤ ls.length) :
    (Place.absolute ls).toPath.IsLongestCommonAncestor (Place.absolute ns).toPath
      (Place.absolute ms).toPath where
  above := ⟨(mem_ancestors_toPath hns).2 ⟨ls, hleft, rfl⟩,
    (mem_ancestors_toPath hms).2 ⟨ls, hright, rfl⟩⟩
  longest b hb hb' := by
    have hproper : ∀ {ks}, ks <+: ns → (Place.absolute ks).IsProper :=
      fun hks n hn => hns n (hks.subset hn)
    obtain ⟨ks, hks, rfl⟩ := (mem_ancestors_toPath hns).1 hb
    obtain ⟨ks', hks', hsame⟩ := (mem_ancestors_toPath hms).1 hb'
    have hproper' : (Place.absolute ks').IsProper := fun n hn => hms n (hks'.subset hn)
    obtain rfl := (toPath_absolute_inj (hproper hks) hproper').1 hsame
    have hlength := hmost ks hks hks'
    rw [length_components_toPath (hproper hks), length_components_toPath (hproper hleft)]
    omega

end Path

end CompileCommands
