import CompileCommands.Proofs.FileTree.Steps
import CompileCommands.Proofs.Host.Writing
/-!
# Trees that differ in files only

Writing files changes what stands at some locations, where a file is or
can be made, and nothing else. A path passes directories and links, so it
stops at the same location before and after (`AlikeBut.stop`), and leads
to the same unless that location is one of those written
(`AlikeBut.follow`).
-/

namespace CompileCommands

namespace FileTree

variable {t t' t'' : FileTree} {P Q : Location → Prop} {links : Nat} {dir l : Location}
variable {piece : List Char} {rest pieces : List (List Char)} {n : String}

/-! ## Where a path stops -/

/-- The location at which following a path ends: that of what it leads
to, or of what it is stuck at. -/
def stop (t : FileTree) (links : Nat) (dir : Location) : List (List Char) → Location
  | [] => dir
  | piece :: rest =>
    match Component.ofPiece? piece with
    | some (.name n) =>
      let l := dir ++ [n]
      match t.entry? l with
      | some .directory => t.stop links l rest
      | some (.link target) =>
        match links with
        | 0 => l
        | links + 1 =>
          let onwards := Text.fields (· == '/') target.chars ++ rest
          t.stop links (if target.isAbsolute then [] else dir) onwards
      | _ => l
    | some .parent => t.stop links dir.dropLast rest
    | _ => t.stop links dir rest
termination_by ps => (links, ps.length)

/-- Whether nothing stands somewhere, or a file does. -/
def IsPlain (e : Option Entry) : Prop := e = none ∨ ∃ c, e = some (.file c)

theorem stop_nil : t.stop links dir [] = dir := by
  rw [stop]

/-- A file or nothing ends a path. -/
theorem stop_plain (hp : Component.ofPiece? piece = some (.name n))
    (he : IsPlain (t.entry? (dir ++ [n]))) : t.stop links dir (piece :: rest) = dir ++ [n] := by
  rw [stop]
  rcases he with he | ⟨c, he⟩ <;> simp only [hp, he]

theorem stop_directory (hp : Component.ofPiece? piece = some (.name n))
    (he : t.entry? (dir ++ [n]) = some .directory) :
    t.stop links dir (piece :: rest) = t.stop links (dir ++ [n]) rest := by
  rw [stop]
  simp only [hp, he]

theorem stop_link_zero {target : Path} (hp : Component.ofPiece? piece = some (.name n))
    (he : t.entry? (dir ++ [n]) = some (.link target)) :
    t.stop 0 dir (piece :: rest) = dir ++ [n] := by
  rw [stop]
  simp only [hp, he]

theorem stop_link_succ {target : Path} (hp : Component.ofPiece? piece = some (.name n))
    (he : t.entry? (dir ++ [n]) = some (.link target)) :
    t.stop (links + 1) dir (piece :: rest) =
      t.stop links (if target.isAbsolute then [] else dir)
        (Text.fields (· == '/') target.chars ++ rest) := by
  rw [stop]
  simp only [hp, he]

theorem stop_parent (hp : Component.ofPiece? piece = some .parent) :
    t.stop links dir (piece :: rest) = t.stop links dir.dropLast rest := by
  rw [stop]
  simp only [hp]

theorem stop_idle (hp : Component.ofPiece? piece = none) :
    t.stop links dir (piece :: rest) = t.stop links dir rest := by
  rw [stop]
  simp only [hp]

/-- **A path stops at the spot that it leads to.** -/
theorem location_of_follow {s : Spot} (h : t.follow links dir pieces = .ok s) :
    s.location = t.stop links dir pieces := by
  induction links, dir, pieces using follow_induction (t := t) with
  | nil links dir =>
    rw [follow_nil] at h
    cases h
    exact stop_nil.symm
  | none links dir piece rest n hp he =>
    rw [follow_none hp he] at h
    rw [stop_plain hp (.inl he)]
    split at h <;> cases h
    rfl
  | directory links dir piece rest n hp he ih =>
    rw [follow_directory hp he] at h
    rw [stop_directory hp he]
    exact ih h
  | file links dir piece rest n c hp he =>
    rw [follow_file hp he] at h
    rw [stop_plain hp (.inr ⟨c, he⟩)]
    split at h <;> cases h
    rfl
  | linkZero dir piece rest n target hp he => rw [follow_link_zero hp he] at h; cases h
  | linkSucc links dir piece rest n target hp he ih =>
    rw [follow_link_succ hp he] at h
    rw [stop_link_succ hp he]
    exact ih h
  | parent links dir piece rest hp ih =>
    rw [follow_parent hp] at h
    rw [stop_parent hp]
    exact ih h
  | idle links dir piece rest hp ih =>
    rw [follow_idle hp] at h
    rw [stop_idle hp]
    exact ih h

/-- Where a file is or can be made, only the end of a path leads on. -/
theorem isOk_follow_plain (hp : Component.ofPiece? piece = some (.name n))
    (he : IsPlain (t.entry? (dir ++ [n]))) :
    (t.follow links dir (piece :: rest)).isOk = rest.isEmpty := by
  rcases he with he | ⟨c, he⟩
  · rw [follow_none hp he]
    cases rest <;> rfl
  · rw [follow_file hp he]
    cases rest <;> rfl

/-! ## Trees that are alike -/

/-- Whether two trees are the same but for files at the locations in
`P`. -/
def AlikeBut (P : Location → Prop) (t t' : FileTree) : Prop :=
  ∀ l, t'.entry? l = t.entry? l ∨ (P l ∧ IsPlain (t.entry? l) ∧ IsPlain (t'.entry? l))

theorem AlikeBut.refl (P : Location → Prop) (t : FileTree) : t.AlikeBut P t := fun _ => .inl rfl

theorem AlikeBut.symm (h : t.AlikeBut P t') : t'.AlikeBut P t :=
  fun l => (h l).imp Eq.symm fun ⟨hP, ht, ht'⟩ => ⟨hP, ht', ht⟩

theorem AlikeBut.trans (h : t.AlikeBut P t') (h' : t'.AlikeBut P t'') : t.AlikeBut P t'' := by
  intro l
  rcases h l with heq | ⟨hP, ht, ht'⟩
  · rcases h' l with heq' | ⟨hP, ht', ht''⟩
    · exact .inl (heq'.trans heq)
    · exact .inr ⟨hP, heq ▸ ht', ht''⟩
  · rcases h' l with heq' | ⟨-, -, ht''⟩
    · exact .inr ⟨hP, ht, heq' ▸ ht'⟩
    · exact .inr ⟨hP, ht, ht''⟩

theorem AlikeBut.mono (h : t.AlikeBut P t') (hPQ : ∀ l, P l → Q l) : t.AlikeBut Q t' :=
  fun l => (h l).imp id fun ⟨hP, hplain⟩ => ⟨hPQ l hP, hplain⟩

/-- A file that is put where one is or can be made is the only change. -/
theorem alikeBut_of_put? {content : ByteArray} (hput : t.put? l (.file content) = some t')
    (hplain : IsPlain (t.entry? l)) : t.AlikeBut (· = l) t' := by
  intro m
  by_cases hm : m = l
  · subst hm
    exact .inr ⟨rfl, hplain, .inr ⟨content, entry?_put?_self hput⟩⟩
  · exact .inl (entry?_put?_ne hput hm)

theorem AlikeBut.of_ne (h : t.AlikeBut P t') (hl : ¬ IsPlain (t.entry? l)) :
    t'.entry? l = t.entry? l :=
  (h l).resolve_right fun hchanged => hl hchanged.2.1

theorem not_isPlain_directory : ¬ IsPlain (some .directory) := by
  rintro (h | ⟨c, h⟩) <;> cases h

theorem not_isPlain_link (target : Path) : ¬ IsPlain (some (.link target)) := by
  rintro (h | ⟨c, h⟩) <;> cases h

/-- **The same way in both trees.** A path stops at the same location,
leads somewhere in both trees or in neither, and leads to the same unless
it stops where they differ. -/
theorem AlikeBut.follow (h : t.AlikeBut P t') (links : Nat) (dir : Location)
    (pieces : List (List Char)) :
    t'.stop links dir pieces = t.stop links dir pieces ∧
      (t'.follow links dir pieces).isOk = (t.follow links dir pieces).isOk ∧
      (¬ P (t.stop links dir pieces) →
        t'.follow links dir pieces = t.follow links dir pieces) := by
  -- a file or nothing, here and there, ends the path here and there
  have hplain : ∀ {links dir piece rest n}, Component.ofPiece? piece = some (.name n) →
      IsPlain (t.entry? (dir ++ [n])) → IsPlain (t'.entry? (dir ++ [n])) →
      t'.stop links dir (piece :: rest) = t.stop links dir (piece :: rest) ∧
        (t'.follow links dir (piece :: rest)).isOk = (t.follow links dir (piece :: rest)).isOk := by
    intro links dir piece rest n hp ht ht'
    exact ⟨(stop_plain hp ht').trans (stop_plain hp ht).symm,
      (isOk_follow_plain hp ht').trans (isOk_follow_plain hp ht).symm⟩
  induction links, dir, pieces using follow_induction (t := t) with
  | nil links dir =>
    rw [stop_nil, stop_nil, follow_nil, follow_nil]
    exact ⟨rfl, rfl, fun _ => rfl⟩
  | none links dir piece rest n hp he =>
    rcases h (dir ++ [n]) with heq | ⟨hP, ht, ht'⟩
    · rw [stop_plain hp (.inl he), stop_plain hp (.inl (heq.trans he)), follow_none hp he,
        follow_none hp (heq.trans he)]
      exact ⟨rfl, rfl, fun _ => rfl⟩
    · obtain ⟨hstop, hok⟩ := hplain hp ht ht'
      exact ⟨hstop, hok, fun hne => absurd (stop_plain hp ht ▸ hP) hne⟩
  | directory links dir piece rest n hp he ih =>
    have he' := (h.of_ne (by rw [he]; exact not_isPlain_directory)).trans he
    rw [stop_directory hp he, stop_directory hp he', follow_directory hp he,
      follow_directory hp he']
    exact ih
  | file links dir piece rest n c hp he =>
    rcases h (dir ++ [n]) with heq | ⟨hP, ht, ht'⟩
    · rw [stop_plain hp (.inr ⟨c, he⟩), stop_plain hp (.inr ⟨c, heq.trans he⟩),
        follow_file hp he, follow_file hp (heq.trans he)]
      exact ⟨rfl, rfl, fun _ => rfl⟩
    · obtain ⟨hstop, hok⟩ := hplain hp ht ht'
      exact ⟨hstop, hok, fun hne => absurd (stop_plain hp ht ▸ hP) hne⟩
  | linkZero dir piece rest n target hp he =>
    have he' := (h.of_ne (by rw [he]; exact not_isPlain_link target)).trans he
    rw [stop_link_zero hp he, stop_link_zero hp he', follow_link_zero hp he,
      follow_link_zero hp he']
    exact ⟨rfl, rfl, fun _ => rfl⟩
  | linkSucc links dir piece rest n target hp he ih =>
    have he' := (h.of_ne (by rw [he]; exact not_isPlain_link target)).trans he
    rw [stop_link_succ hp he, stop_link_succ hp he', follow_link_succ hp he,
      follow_link_succ hp he']
    exact ih
  | parent links dir piece rest hp ih =>
    rw [stop_parent hp, stop_parent hp, follow_parent hp, follow_parent hp]
    exact ih
  | idle links dir piece rest hp ih =>
    rw [stop_idle hp, stop_idle hp, follow_idle hp, follow_idle hp]
    exact ih

end FileTree

end CompileCommands
