import CompileCommands.Proofs.Host.Spots
/-!
# Writing a file, then reading it

Putting an entry into a tree changes what stands at its location and
nothing else. A path that leads to a file, or to a vacant name, passes
only directories and links on its way, so it still leads there once a
file has been put there: what has been written under a path is read
under it.
-/

namespace CompileCommands

variable {t t' : FileTree} {l m : Location} {e : Entry}

namespace FileTree

theorem lookup_filter_ne (entries : List (Location × Entry)) (h : m ≠ l) :
    (entries.filter fun x => x.1 != l).lookup m = entries.lookup m := by
  induction entries with
  | nil => rfl
  | cons x entries ih =>
    obtain ⟨k, f⟩ := x
    by_cases hk : k = l
    · have hmk : (m == k) = false := by simpa [hk] using h
      rw [List.filter_cons_of_neg (by simp [hk]), ih, List.lookup_cons, hmk]
    · rw [List.filter_cons_of_pos (by simp [hk]), List.lookup_cons, List.lookup_cons, ih]

/-- An entry is never put at the root. -/
theorem ne_nil_of_put? (h : t.put? l e = some t') : l ≠ [] := by
  unfold put? at h
  split at h
  · rename_i hl
    exact hl.1.1
  · cases h

/-- **What has been put at a location stands there.** -/
theorem entry?_put?_self (h : t.put? l e = some t') : t'.entry? l = some e := by
  have hl := ne_nil_of_put? h
  unfold put? at h
  split at h
  · cases h
    simp [ entry?, hl]
  · cases h

/-- **And everywhere else stands what stood there before.** -/
theorem entry?_put?_ne (h : t.put? l e = some t') (hm : m ≠ l) : t'.entry? m = t.entry? m := by
  unfold put? at h
  split at h
  · cases h
    have hml : (m == l) = false := by simpa using hm
    simp only [ entry?, List.lookup_cons, hml, lookup_filter_ne _ hm]
  · cases h

/-- The spot of a file, or of a name that is free for one. -/
def IsFileSpot (l : Location) (s : Spot) : Prop :=
  s = .vacant l ∨ ∃ c, s = .taken l (.file c)

/-- **The way to a file stays open.** A path that leads to a file, or to
where one can be made, passes directories and links only; none of them
is the location of the file, so the path leads to what is put there. -/
theorem follow_put? {content : ByteArray} (hput : t.put? l (.file content) = some t')
    {links : Nat} {dir : Location} {pieces : List (List Char)} {s : Spot}
    (h : t.follow links dir pieces = .ok s) (hs : IsFileSpot l s) :
    t'.follow links dir pieces = .ok (.taken l (.file content)) := by
  have hself := entry?_put?_self hput
  have hfree : t.entry? l = none ∨ ∃ c, t.entry? l = some (.file c) := by
    rcases hs with rfl | ⟨c, rfl⟩
    · exact Or.inl (agrees_of_follow h)
    · exact Or.inr ⟨c, agrees_of_follow h (by simp)⟩
  -- what is no file stands elsewhere, and stays
  have hkept : ∀ {m f}, t.entry? m = some f → (∀ c, f ≠ .file c) → t'.entry? m = some f := by
    intro m f hm hf
    rw [entry?_put?_ne hput, hm]
    rintro rfl
    rcases hfree with hl | ⟨c, hl⟩
    · rw [hl] at hm; cases hm
    · rw [hl] at hm; exact hf c (Option.some.inj hm).symm
  induction links, dir, pieces using follow_induction (t := t) with
  | nil links dir =>
    rw [follow_nil] at h
    cases h
    rcases hs with hs | ⟨c, hs⟩ <;> cases hs
  | none links dir piece rest n hp he =>
    rw [follow_none hp he] at h
    split at h
    · rename_i hrest
      cases h
      -- the free name is the location, where the file stands now
      obtain rfl : dir ++ [n] = l := by
        rcases hs with hs | ⟨c, hs⟩ <;> cases hs
        rfl
      rw [follow_file hp hself, if_pos hrest]
    · cases h
  | directory links dir piece rest n hp he ih =>
    rw [follow_directory hp he] at h
    rw [follow_directory hp (hkept he (by simp))]
    exact ih h
  | file links dir piece rest n c hp he =>
    rw [follow_file hp he] at h
    split at h
    · rename_i hrest
      cases h
      obtain rfl : dir ++ [n] = l := by
        rcases hs with hs | ⟨c, hs⟩ <;> cases hs
        rfl
      rw [follow_file hp hself, if_pos hrest]
    · cases h
  | linkZero dir piece rest n target hp he => rw [follow_link_zero hp he] at h; cases h
  | linkSucc links dir piece rest n target hp he ih =>
    rw [follow_link_succ hp he] at h
    rw [follow_link_succ hp (hkept he (by simp))]
    exact ih h
  | parent links dir piece rest hp ih =>
    rw [follow_parent hp] at h ⊢
    exact ih h
  | idle links dir piece rest hp ih =>
    rw [follow_idle hp] at h ⊢
    exact ih h

end FileTree

namespace Host

variable {h h' : Host} {p : Path} {content : ByteArray} {s : Spot}

/-- What a successful write did: the path leads to a file or to where one
can be made, and the file was put there. -/
theorem write_cases (hw : h.write p content = .ok h') :
    ∃ s l t', h.spot p = .ok s ∧ FileTree.IsFileSpot l s ∧
      h.tree.put? l (.file content) = some t' ∧ h' = { h with tree := t' } := by
  unfold write at hw
  split at hw
  · cases hw
  · rename_i l c hs
    split at hw
    · rename_i t' hput
      cases hw
      exact ⟨_, l, t', hs, Or.inr ⟨c, rfl⟩, hput, rfl⟩
    · cases hw
  · rename_i l hs
    split at hw
    · rename_i t' hput
      cases hw
      exact ⟨_, l, t', hs, Or.inl rfl, hput, rfl⟩
    · cases hw
  · cases hw

/-- **What is written under a path is read under it.** -/
theorem read_of_write (hw : h.write p content = .ok h') : h'.read p = .ok content := by
  obtain ⟨s, l, t', hs, hfile, hput, rfl⟩ := write_cases hw
  obtain ⟨hnul, hempty, d, hd, hfollow⟩ := spot_eq_ok_iff.1 hs
  have hspot : ({ h with tree := t' } : Host).spot p = .ok (.taken l (.file content)) :=
    spot_eq_ok_iff.2 ⟨hnul, hempty, d, hd, FileTree.follow_put? hput hfollow hfile⟩
  simp only [read, locate, hspot]

end Host

end CompileCommands
