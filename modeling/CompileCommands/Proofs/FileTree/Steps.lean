import CompileCommands.FileTree.Follow
/-!
# One step along a path

`follow` takes a path piece by piece. One equation for each thing that a
piece can come upon says what a step does, so that an argument about a
whole path is an induction over its pieces that never opens the
definition. A spot that is reached stands in the tree as the spot says.
-/

namespace CompileCommands

namespace FileTree

variable {t : FileTree} {links : Nat} {dir : Location} {piece : List Char}
variable {rest : List (List Char)} {n : String}

theorem follow_nil : t.follow links dir [] = .ok (.taken dir .directory) := by
  rw [follow]

/-- A name that the directory does not hold. -/
theorem follow_none (hp : Component.ofPiece? piece = some (.name n))
    (he : t.entry? (dir ++ [n]) = none) :
    t.follow links dir (piece :: rest) =
      if rest.isEmpty then .ok (.vacant (dir ++ [n])) else .error .notFound := by
  rw [follow]
  simp only [hp, he]

/-- A subdirectory. -/
theorem follow_directory (hp : Component.ofPiece? piece = some (.name n))
    (he : t.entry? (dir ++ [n]) = some .directory) :
    t.follow links dir (piece :: rest) = t.follow links (dir ++ [n]) rest := by
  rw [follow]
  simp only [hp, he]

/-- A file ends the path. -/
theorem follow_file {c : ByteArray} (hp : Component.ofPiece? piece = some (.name n))
    (he : t.entry? (dir ++ [n]) = some (.file c)) :
    t.follow links dir (piece :: rest) =
      if rest.isEmpty then .ok (.taken (dir ++ [n]) (.file c)) else .error .notDirectory := by
  rw [follow]
  simp only [hp, he]

/-- A link that may not be passed any more. -/
theorem follow_link_zero {target : Path} (hp : Component.ofPiece? piece = some (.name n))
    (he : t.entry? (dir ++ [n]) = some (.link target)) :
    t.follow 0 dir (piece :: rest) = .error .tooManyLinks := by
  rw [follow]
  simp only [hp, he]

/-- A link is replaced by its target. -/
theorem follow_link_succ {target : Path} (hp : Component.ofPiece? piece = some (.name n))
    (he : t.entry? (dir ++ [n]) = some (.link target)) :
    t.follow (links + 1) dir (piece :: rest) =
      t.follow links (if target.isAbsolute then [] else dir)
        (Text.fields (· == '/') target.chars ++ rest) := by
  rw [follow]
  simp only [hp, he]

/-- The directory above. -/
theorem follow_parent (hp : Component.ofPiece? piece = some .parent) :
    t.follow links dir (piece :: rest) = t.follow links dir.dropLast rest := by
  rw [follow]
  simp only [hp]

/-- A piece without a meaning leads nowhere. -/
theorem follow_idle (hp : Component.ofPiece? piece = none) :
    t.follow links dir (piece :: rest) = t.follow links dir rest := by
  rw [follow]
  simp only [hp]

/-- Pieces without a meaning lead nowhere. -/
theorem follow_idles {ps : List (List Char)} (hps : ∀ p ∈ ps, Component.ofPiece? p = none)
    (qs : List (List Char)) : t.follow links dir (ps ++ qs) = t.follow links dir qs := by
  induction ps with
  | nil => rfl
  | cons p ps ih =>
    obtain ⟨hp, hps⟩ := List.forall_mem_cons.1 hps
    rw [List.cons_append, follow_idle hp, ih hps]

/-- What a piece means, if it means anything. -/
theorem ofPiece?_cases (piece : List Char) :
    Component.ofPiece? piece = none ∨ Component.ofPiece? piece = some .parent ∨
      ∃ n, Component.ofPiece? piece = some (.name n) := by
  unfold Component.ofPiece?
  split <;> simp

/-- What one step comes upon decides the whole of it: an induction along a
path has these cases. -/
theorem follow_induction {motive : Nat → Location → List (List Char) → Prop}
    (nil : ∀ links dir, motive links dir [])
    (none : ∀ links dir piece rest n, Component.ofPiece? piece = some (.name n) →
      t.entry? (dir ++ [n]) = none → motive links dir (piece :: rest))
    (directory : ∀ links dir piece rest n, Component.ofPiece? piece = some (.name n) →
      t.entry? (dir ++ [n]) = some .directory → motive links (dir ++ [n]) rest →
      motive links dir (piece :: rest))
    (file : ∀ links dir piece rest n c, Component.ofPiece? piece = some (.name n) →
      t.entry? (dir ++ [n]) = some (.file c) → motive links dir (piece :: rest))
    (linkZero : ∀ dir piece rest n target, Component.ofPiece? piece = some (.name n) →
      t.entry? (dir ++ [n]) = some (.link target) → motive 0 dir (piece :: rest))
    (linkSucc : ∀ links dir piece rest n target, Component.ofPiece? piece = some (.name n) →
      t.entry? (dir ++ [n]) = some (.link target) →
      motive links (if target.isAbsolute then [] else dir)
        (Text.fields (· == '/') target.chars ++ rest) →
      motive (links + 1) dir (piece :: rest))
    (parent : ∀ links dir piece rest, Component.ofPiece? piece = some .parent →
      motive links dir.dropLast rest → motive links dir (piece :: rest))
    (idle : ∀ links dir piece rest, Component.ofPiece? piece = Option.none →
      motive links dir rest → motive links dir (piece :: rest))
    (links : Nat) (dir : Location) (pieces : List (List Char)) : motive links dir pieces := by
  induction links, dir, pieces using follow.induct t with
  | case1 links dir => exact nil links dir
  | case2 links dir piece rest n hp l he _ => exact none links dir piece rest n hp he
  | case3 links dir piece rest n hp l he _ => exact none links dir piece rest n hp he
  | case4 links dir piece rest n hp l he ih => exact directory links dir piece rest n hp he ih
  | case5 links dir piece rest n hp l c he _ => exact file links dir piece rest n c hp he
  | case6 links dir piece rest n hp l c he _ => exact file links dir piece rest n c hp he
  | case7 dir piece rest n hp l target he => exact linkZero dir piece rest n target hp he
  | case8 dir piece rest n hp l target he links onwards ih =>
    exact linkSucc links dir piece rest n target hp he (by simpa using ih)
  | case9 links dir piece rest hp ih => exact parent links dir piece rest hp ih
  | case10 links dir piece rest hname hparent ih =>
    refine idle links dir piece rest ?_ ih
    rcases ofPiece?_cases piece with h | h | ⟨n, h⟩
    · exact h
    · exact (hparent h).elim
    · exact (hname n h).elim

/-! ## What is reached stands in the tree -/

/-- Whether a spot is as the tree has it. A directory may be the root or
one that the path set out from, and is not looked up. -/
def Agrees (t : FileTree) : Spot → Prop
  | .vacant l => t.entry? l = Option.none
  | .taken l e => e ≠ .directory → t.entry? l = some e

/-- **A path leads to what the tree has there.** -/
theorem agrees_of_follow {s : Spot} {pieces : List (List Char)}
    (h : t.follow links dir pieces = .ok s) : t.Agrees s := by
  induction links, dir, pieces using follow_induction (t := t) with
  | nil links dir =>
    rw [follow_nil] at h
    cases h
    exact fun hne => absurd rfl hne
  | none links dir piece rest n hp he =>
    rw [follow_none hp he] at h
    split at h
    · cases h; exact he
    · cases h
  | directory links dir piece rest n hp he ih => rw [follow_directory hp he] at h; exact ih h
  | file links dir piece rest n c hp he =>
    rw [follow_file hp he] at h
    split at h
    · cases h; exact fun _ => he
    · cases h
  | linkZero dir piece rest n target hp he => rw [follow_link_zero hp he] at h; cases h
  | linkSucc links dir piece rest n target hp he ih =>
    rw [follow_link_succ hp he] at h
    exact ih h
  | parent links dir piece rest hp ih => rw [follow_parent hp] at h; exact ih h
  | idle links dir piece rest hp ih => rw [follow_idle hp] at h; exact ih h

end FileTree

end CompileCommands
