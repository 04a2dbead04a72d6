import CompileCommands.Proofs.FileTree.Steps
import CompileCommands.Proofs.Path.Canonical
import Mathlib.Data.List.Induction
/-!
# Locations as paths

Whatever stands in a tree stands in directories, so the names of a
location, followed from the root, pass directories only and lead to what
stands there. In a tree without links any path leads where folding it
does (`IsLinkFree.walk_of_follow`).
-/

namespace CompileCommands

/-- The location that a spot is at. -/
def Spot.location : Spot → Location
  | .taken l _ => l
  | .vacant l => l

namespace FileTree

variable {t : FileTree} {l m : Location} {e : Entry}

theorem mem_entries_of_entry? (hl : l ≠ []) (he : t.entry? l = some e) : (l, e) ∈ t.entries := by
  rw [ entry?, if_neg hl, List.lookup_eq_some_iff] at he
  obtain ⟨before, after, hentries, -⟩ := he
  rw [hentries]
  exact List.mem_append_right _ (List.mem_cons_self ..)

/-- No location has two entries, so a listed one is the one found. -/
theorem entry?_of_mem_entries (he : (l, e) ∈ t.entries) : t.entry? l = some e := by
  obtain ⟨before, after, hentries⟩ := List.append_of_mem he
  rw [ entry?, if_neg (t.proper _ he).1, List.lookup_eq_some_iff]
  refine ⟨before, after, hentries, fun x hx => ?_⟩
  have hnodup := t.distinct
  rw [hentries, List.map_append, List.nodup_append] at hnodup
  have hne : x.1 ≠ l := hnodup.2.2 x.1 (List.mem_map.2 ⟨x, hx, rfl⟩) l (by simp)
  simpa using hne.symm

theorem entry?_of_hasDirectory (h : t.HasDirectory l) : t.entry? l = some .directory := by
  rcases h with rfl | h
  · rfl
  · exact entry?_of_mem_entries h

/-- **Above every entry there are directories.** -/
theorem hasDirectory_of_append {k : Location} (hk : k ≠ []) (he : (m ++ k, e) ∈ t.entries) :
    t.HasDirectory m := by
  induction k using List.reverseRecOn generalizing e with
  | nil => exact absurd rfl hk
  | append_singleton k n ih =>
    have hparent := t.closed _ he
    rw [← List.append_assoc, List.dropLast_concat] at hparent
    by_cases hnil : k = []
    · rwa [hnil, List.append_nil] at hparent
    · -- the parent is an entry itself, one name shorter
      rcases hparent with hroot | hparent
      · exact absurd (List.append_eq_nil_iff.1 hroot).2 hnil
      · exact ih hnil hparent

theorem isName_of_validName {n : String} (h : ValidName n) : Component.IsName n := by
  obtain ⟨hempty, hone, htwo, hslash, -⟩ := h
  refine ⟨?_, hslash⟩
  rw [Component.ofPiece?_of_ne, String.ofList_toList]
  · exact fun hnil => hempty (String.toList_inj.1 hnil)
  · exact fun hdot => hone (String.toList_inj.1 hdot)
  · exact fun hdots => htwo (String.toList_inj.1 hdots)

theorem validName_of_mem_names {n : String} (hn : n ∈ t.names l) : ValidName n := by
  obtain ⟨e, he, hlast⟩ := List.mem_filterMap.1 hn
  split at hlast
  · exact (t.proper e he).2 n (List.mem_of_getLast? hlast)
  · cases hlast

theorem validName_of_hasDirectory (hd : t.HasDirectory l) : ∀ n ∈ l, ValidName n := by
  rcases hd with rfl | hd
  · exact fun n hn => absurd hn List.not_mem_nil
  · exact (t.proper _ hd).2

/-- Above a directory there are directories. -/
theorem HasDirectory.of_append (hd : t.HasDirectory (m ++ l)) : t.HasDirectory m := by
  by_cases hnil : l = []
  · rwa [hnil, List.append_nil] at hd
  · rcases hd with hroot | hd
    · exact .inl (List.append_eq_nil_iff.1 hroot).1
    · exact hasDirectory_of_append hnil hd

theorem HasDirectory.take (hd : t.HasDirectory l) (k : Nat) : t.HasDirectory (l.take k) :=
  of_append (l := l.drop k) (by rwa [List.take_append_drop])

theorem hasDirectory_of_entry? (he : t.entry? l = some .directory) : t.HasDirectory l := by
  by_cases hl : l = []
  · exact .inl hl
  · have hmem := mem_entries_of_entry? hl he
    exact .inr hmem

/-- **The names of a directory lead down to it**, and whatever follows
them leads on from there. -/
theorem follow_down {links : Nat} (hd : t.HasDirectory (m ++ l)) (rest : List (List Char)) :
    t.follow links m (l.map String.toList ++ rest) = t.follow links (m ++ l) rest := by
  induction l generalizing m with
  | nil => rw [List.map_nil, List.nil_append, List.append_nil]
  | cons n l ih =>
    have hn : ValidName n := validName_of_hasDirectory hd n (by simp)
    have hdown : m ++ n :: l = (m ++ [n]) ++ l := by simp
    rw [hdown] at hd ⊢
    rw [List.map_cons, List.cons_append,
      follow_directory (isName_of_validName hn).1 (entry?_of_hasDirectory hd.of_append), ih hd]

theorem follow_names {links : Nat} (hd : t.HasDirectory (m ++ l)) :
    t.follow links m (l.map String.toList) = .ok (.taken (m ++ l) .directory) := by
  rw [← List.append_nil (l.map String.toList), follow_down hd, follow_nil]

/-- Going up drops names from the end. -/
theorem follow_up {links : Nat} (k : Nat) (dir : Location) (rest : List (List Char)) :
    t.follow links dir (List.replicate k ['.', '.'] ++ rest) =
      t.follow links (dir.take (dir.length - k)) rest := by
  induction k generalizing dir with
  | zero => rw [Nat.sub_zero, List.take_length]; rfl
  | succ k ih =>
    have htake : dir.dropLast.take (dir.dropLast.length - k) =
        dir.take (dir.length - (k + 1)) := by
      rw [List.dropLast_eq_take, List.take_take, List.length_take]
      congr 1
      omega
    rw [List.replicate_succ, List.cons_append, follow_parent rfl, ih, htake]

/-- **The names below a directory lead to the file that stands there**,
and pass no link. -/
theorem follow_location {c : ByteArray} {links : Nat} (hl : l ≠ [])
    (he : (m ++ l, .file c) ∈ t.entries) :
    t.follow links m (l.map String.toList) = .ok (.taken (m ++ l) (.file c)) := by
  obtain ⟨dir, n, rfl⟩ := (List.eq_nil_or_concat' l).resolve_left hl
  rw [← List.append_assoc] at he ⊢
  have hdir : t.HasDirectory (m ++ dir) := hasDirectory_of_append (List.cons_ne_nil n []) he
  have hn := isName_of_validName ((t.proper _ he).2 n (by simp))
  rw [List.map_append, follow_down hdir, List.map_singleton,
    follow_file hn.1 (entry?_of_mem_entries he)]
  rfl

/-! ## Trees without links -/

/-- Whether no symbolic link stands in the tree. -/
def IsLinkFree (t : FileTree) : Prop := ∀ e ∈ t.entries, ∀ target, e.2 ≠ .link target

theorem IsLinkFree.entry?_ne (ht : t.IsLinkFree) (l : Location) (target : Path) :
    t.entry? l ≠ some (.link target) := by
  intro he
  by_cases hl : l = []
  · rw [hl] at he
    cases he
  · have hmem := mem_entries_of_entry? hl he
    exact ht _ hmem target rfl

/-- **Without links a path leads where folding it does**, `..` after
whatever name. -/
theorem IsLinkFree.walk_of_follow (ht : t.IsLinkFree) {links : Nat} {dir : Location}
    {pieces : List (List Char)} {s : Spot} (hfollow : t.follow links dir pieces = .ok s) :
    (Place.absolute dir).walk (pieces.filterMap Component.ofPiece?) = .absolute s.location := by
  -- a name with nothing behind it ends the path, whatever stands there
  have hlast : ∀ {dir piece rest n}, Component.ofPiece? piece = some (.name n) →
      rest.isEmpty = true →
        (Place.absolute dir).walk ((piece :: rest).filterMap Component.ofPiece?) =
          .absolute (dir ++ [n]) := by
    intro dir piece rest n hp hrest
    rw [List.filterMap_cons_some hp, List.isEmpty_iff.1 hrest]
    rfl
  induction links, dir, pieces using follow_induction (t := t) with
  | nil links dir =>
    rw [follow_nil] at hfollow
    cases hfollow
    rfl
  | none links dir piece rest n hp he =>
    rw [follow_none hp he] at hfollow
    split at hfollow
    · rename_i hrest
      cases hfollow
      exact hlast hp hrest
    · cases hfollow
  | directory links dir piece rest n hp he ih =>
    rw [follow_directory hp he] at hfollow
    rw [List.filterMap_cons_some hp, Place.walk_cons]
    exact ih hfollow
  | file links dir piece rest n c hp he =>
    rw [follow_file hp he] at hfollow
    split at hfollow
    · rename_i hrest
      cases hfollow
      exact hlast hp hrest
    · cases hfollow
  | linkZero dir piece rest n target hp he => exact absurd he (ht.entry?_ne _ target)
  | linkSucc links dir piece rest n target hp he ih => exact absurd he (ht.entry?_ne _ target)
  | parent links dir piece rest hp ih =>
    rw [follow_parent hp] at hfollow
    rw [List.filterMap_cons_some hp, Place.walk_cons]
    exact ih hfollow
  | idle links dir piece rest hp ih =>
    rw [follow_idle hp] at hfollow
    rw [List.filterMap_cons_none hp]
    exact ih hfollow

end FileTree

end CompileCommands
