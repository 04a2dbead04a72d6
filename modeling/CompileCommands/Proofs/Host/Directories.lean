import CompileCommands.Proofs.Host.Normalized
import CompileCommands.Proofs.Path.Spelled
/-!
# Directories that paths lead to

Which directory a path leads to depends on where it sets out and on its
steps alone, unlike for a file, behind which no separator may stand
(`follow_of_steps`). So a path of names is as good as its names, which are
followed by `FileTree.directory?`, and two hosts with one tree know the
same directories below the same start.
-/

namespace CompileCommands

namespace FileTree

variable {t : FileTree} {links : Nat} {dir l : Location} {ps qs : List (List Char)}

/-- **A directory is reached along the steps**, whatever stands between
them. -/
theorem follow_of_steps
    (hsteps : ps.filterMap Component.ofPiece? = qs.filterMap Component.ofPiece?)
    (hfollow : t.follow links dir ps = .ok (.taken l .directory)) :
    t.follow links dir qs = .ok (.taken l .directory) := by
  induction links, dir, ps using follow_induction (t := t) generalizing qs with
  | nil links dir =>
    have hidle : ∀ q ∈ qs, Component.ofPiece? q = none := List.filterMap_eq_nil_iff.1 hsteps.symm
    rw [← List.append_nil qs, follow_idles hidle, hfollow]
  | none links dir piece rest n hp he =>
    rw [follow_none hp he] at hfollow
    split at hfollow <;> cases hfollow
  | directory links dir piece rest n hp he ih =>
    rw [follow_directory hp he] at hfollow
    rw [List.filterMap_cons_some hp] at hsteps
    obtain ⟨idles, q, qs, rfl, hidle, hq, hrest⟩ := List.filterMap_eq_cons_iff.1 hsteps.symm
    rw [follow_idles hidle, follow_directory hq he]
    exact ih hrest.symm hfollow
  | file links dir piece rest n c hp he =>
    rw [follow_file hp he] at hfollow
    split at hfollow <;> cases hfollow
  | linkZero dir piece rest n target hp he =>
    rw [follow_link_zero hp he] at hfollow
    cases hfollow
  | linkSucc links dir piece rest n target hp he ih =>
    rw [follow_link_succ hp he] at hfollow
    rw [List.filterMap_cons_some hp] at hsteps
    obtain ⟨idles, q, qs, rfl, hidle, hq, hrest⟩ := List.filterMap_eq_cons_iff.1 hsteps.symm
    rw [follow_idles hidle, follow_link_succ hq he]
    refine ih ?_ hfollow
    rw [List.filterMap_append, List.filterMap_append, hrest]
  | parent links dir piece rest hp ih =>
    rw [follow_parent hp] at hfollow
    rw [List.filterMap_cons_some hp] at hsteps
    obtain ⟨idles, q, qs, rfl, hidle, hq, hrest⟩ := List.filterMap_eq_cons_iff.1 hsteps.symm
    rw [follow_idles hidle, follow_parent hq]
    exact ih hrest.symm hfollow
  | idle links dir piece rest hp ih =>
    rw [follow_idle hp] at hfollow
    rw [List.filterMap_cons_none hp] at hsteps
    exact ih hsteps hfollow

/-- **On the way to a directory there are directories only**, and from
each of them the rest leads on. -/
theorem exists_directory_of_append
    (hfollow : t.follow links dir (ps ++ qs) = .ok (.taken l .directory)) :
    ∃ m k, t.follow links dir ps = .ok (.taken m .directory) ∧
      t.follow k m qs = .ok (.taken l .directory) := by
  induction links, dir, ps using follow_induction (t := t) with
  | nil links dir => exact ⟨dir, links, follow_nil, hfollow⟩
  | none links dir piece rest n hp he =>
    rw [List.cons_append, follow_none hp he] at hfollow
    split at hfollow <;> cases hfollow
  | directory links dir piece rest n hp he ih =>
    rw [List.cons_append, follow_directory hp he] at hfollow
    rw [follow_directory hp he]
    exact ih hfollow
  | file links dir piece rest n c hp he =>
    rw [List.cons_append, follow_file hp he] at hfollow
    split at hfollow <;> cases hfollow
  | linkZero dir piece rest n target hp he =>
    rw [List.cons_append, follow_link_zero hp he] at hfollow
    cases hfollow
  | linkSucc links dir piece rest n target hp he ih =>
    rw [List.cons_append, follow_link_succ hp he, ← List.append_assoc] at hfollow
    rw [follow_link_succ hp he]
    exact ih hfollow
  | parent links dir piece rest hp ih =>
    rw [List.cons_append, follow_parent hp] at hfollow
    rw [follow_parent hp]
    exact ih hfollow
  | idle links dir piece rest hp ih =>
    rw [List.cons_append, follow_idle hp] at hfollow
    rw [follow_idle hp]
    exact ih hfollow

/-- A name that leads to a directory is the name of an entry. -/
theorem mem_names_of_follow {n : String} (hn : Component.IsName n)
    (hfollow : t.follow links dir [n.toList] = .ok (.taken l .directory)) : n ∈ t.names dir := by
  obtain ⟨e, he⟩ : ∃ e, t.entry? (dir ++ [n]) = some e := by
    cases hentry : t.entry? (dir ++ [n]) with
    | some e => exact ⟨e, rfl⟩
    | none =>
      rw [follow_none hn.1 hentry] at hfollow
      cases hfollow
  have hmem := mem_entries_of_entry? (List.concat_ne_nil n dir) he
  refine List.mem_filterMap.2 ⟨_, hmem, ?_⟩
  rw [if_pos (List.dropLast_concat ..), List.getLast?_concat]

/-- The directory that names lead to. A name with a zero character is not
looked for. -/
def directory? (t : FileTree) (dir : Location) (ns : List String) : Option Location :=
  if ns.any fun n => n.toList.contains '\x00' then none
  else
    match t.follow linkLimit dir (ns.map String.toList) with
    | .ok (.taken l .directory) => some l
    | _ => none

theorem directory?_eq_some {ns : List String} : t.directory? dir ns = some l ↔
    (∀ n ∈ ns, '\x00' ∉ n.toList) ∧
      t.follow linkLimit dir (ns.map String.toList) = .ok (.taken l .directory) := by
  have hnul : (ns.any fun n => n.toList.contains '\x00') = true ↔
      ¬ ∀ n ∈ ns, '\x00' ∉ n.toList := by
    simp
  unfold directory?
  split
  · rename_i hany
    constructor
    · intro heq
      cases heq
    · intro hall
      exact absurd hall.1 (hnul.1 hany)
  · rename_i hany
    have hall : ∀ n ∈ ns, '\x00' ∉ n.toList := not_not.1 fun hsome => hany (hnul.2 hsome)
    rw [and_iff_right hall]
    split
    · rename_i m hfollow
      rw [hfollow]
      simp
    · rename_i hother
      constructor
      · intro heq
        cases heq
      · intro hfollow
        exact absurd hfollow (hother l)

theorem directory?_of_hasDirectory (dir l : Location) (hd : t.HasDirectory (dir ++ l)) :
    t.directory? dir l = some (dir ++ l) := by
  have hvalid := validName_of_hasDirectory hd
  exact directory?_eq_some.2
    ⟨fun n hn => (hvalid n (List.mem_append_right _ hn)).2.2.2.2, follow_names hd⟩

end FileTree

namespace Host

variable {h : Host} {p : Path} {d l : Location} {ns : List String}

/-- A path of names holds a zero character exactly if one of the names
does. -/
theorem nul_mem_chars_iff (hsteps : p.steps = ns.map .name) :
    '\x00' ∈ p.chars ↔ ∃ n ∈ ns, '\x00' ∈ n.toList := by
  rw [Path.mem_chars_iff (by decide) (by decide), hsteps]
  simp

/-- **A path leads to a directory** if its steps do from where it sets
out. -/
theorem locate_directory_iff (hne : p.chars ≠ []) :
    h.locate p = .ok (l, .directory) ↔ '\x00' ∉ p.chars ∧ ∃ d, h.start? p = some d ∧
      h.tree.follow FileTree.linkLimit d (p.steps.map fun c => c.text.toList) =
        .ok (.taken l .directory) := by
  have hpieces : (Text.fields (· == '/') p.chars).filterMap Component.ofPiece? =
      (p.steps.map fun c => c.text.toList).filterMap Component.ofPiece? := by
    have htexts : p.steps.filterMap (fun c => Component.ofPiece? c.text.toList) =
        p.steps.filterMap some :=
      List.filterMap_congr fun c hc => (Path.ofPiece?_text_of_mem_steps hc).1
    rw [List.filterMap_map]
    exact (htexts.trans List.filterMap_some).symm
  have hnul : p.chars.contains '\x00' = false ↔ '\x00' ∉ p.chars := by
    rw [← Bool.not_eq_true, List.contains_iff_mem]
  constructor
  · intro hp
    obtain ⟨hzero, -, d, hd, hfollow⟩ := spot_eq_ok_iff.1 (spot_of_locate hp)
    exact ⟨hnul.1 hzero, d, hd, FileTree.follow_of_steps hpieces hfollow⟩
  · rintro ⟨hzero, d, hd, hfollow⟩
    have hspot : h.spot p = .ok (.taken l .directory) :=
      spot_eq_ok_iff.2 ⟨hnul.2 hzero, List.isEmpty_eq_false_iff.2 hne, d, hd,
        FileTree.follow_of_steps hpieces.symm hfollow⟩
    rw [locate, hspot]

theorem ne_nil_of_locate {e : Entry} (hp : h.locate p = .ok (l, e)) : p.chars ≠ [] := by
  obtain ⟨-, hempty, -⟩ := spot_eq_ok_iff.1 (spot_of_locate hp)
  exact List.isEmpty_eq_false_iff.1 hempty

/-- **A path of names leads to the directory that the names lead to.** -/
theorem locate_eq_directory_iff (hne : p.chars ≠ []) (hstart : h.start? p = some d)
    (hsteps : p.steps = ns.map .name) :
    h.locate p = .ok (l, .directory) ↔ h.tree.directory? d ns = some l := by
  have htexts : p.steps.map (fun c => c.text.toList) = ns.map String.toList := by
    rw [hsteps, List.map_map]
    rfl
  have hnul : '\x00' ∉ p.chars ↔ ∀ n ∈ ns, '\x00' ∉ n.toList := by
    rw [nul_mem_chars_iff hsteps]
    simp
  rw [locate_directory_iff hne, FileTree.directory?_eq_some, htexts, hnul]
  simp [hstart]

/-- The first steps of a path that leads to a directory do so as well. -/
theorem isDirectory_of_steps {q : Path} (hne : p.chars ≠ []) (hstart : h.start? p = h.start? q)
    (hsteps : p.steps <+: q.steps) (hq : h.isDirectory q = true) : h.isDirectory p = true := by
  obtain ⟨l, hl⟩ := isDirectory_iff.1 hq
  obtain ⟨hnul, d, hd, hfollow⟩ := (locate_directory_iff (ne_nil_of_locate hl)).1 hl
  obtain ⟨rest, hrest⟩ := hsteps
  rw [← hrest, List.map_append] at hfollow
  obtain ⟨m, -, hm, -⟩ := FileTree.exists_directory_of_append hfollow
  refine isDirectory_iff.2 ⟨m, (locate_directory_iff hne).2 ⟨?_, d, hstart.trans hd, hm⟩⟩
  rw [Path.mem_chars_iff (by decide) (by decide)] at hnul ⊢
  rintro ⟨n, hn, hin⟩
  exact hnul ⟨n, hrest ▸ List.mem_append_left _ hn, hin⟩

/-- **Above a directory there are directories.** -/
theorem isDirectory_of_initial {q : Path} (hne : p.components ≠ [])
    (hpq : p.components <+: q.components) (hq : h.isDirectory q = true) :
    h.isDirectory p = true := by
  refine isDirectory_of_steps (fun hnil => hne (Path.components_eq_nil_iff.2 hnil)) ?_
    (Path.steps_of_initial hpq) hq
  rw [start?, start?, Path.isAbsolute_of_initial hne hpq]

/-- **Two spellings of a path** lead to a directory both or neither. -/
theorem isDirectory_congr {q : Path} (hpq : p.components = q.components) :
    h.isDirectory p = h.isDirectory q := by
  have hempty : ∀ {r : Path}, h.isDirectory r = true → r.components ≠ [] := by
    intro r hr hnil
    obtain ⟨l, hl⟩ := isDirectory_iff.1 hr
    exact ne_nil_of_locate hl (Path.components_eq_nil_iff.1 hnil)
  rw [Bool.eq_iff_iff]
  constructor
  · intro hp
    exact isDirectory_of_initial (hpq ▸ hempty hp) (hpq ▸ List.prefix_rfl) hp
  · intro hq
    exact isDirectory_of_initial (hpq ▸ hempty hq) (hpq ▸ List.prefix_rfl) hq

/-- **A subdirectory is listed** in the directory that it is in. -/
theorem mem_list_of_isDirectory {n : String} (hne : p.chars ≠ []) (hn : Component.IsName n)
    (hdir : h.isDirectory (p.join ⟨n⟩) = true) : n ∈ h.list p := by
  obtain ⟨l, hl⟩ := isDirectory_iff.1 hdir
  obtain ⟨hnul, d, hd, hfollow⟩ := (locate_directory_iff (ne_nil_of_locate hl)).1 hl
  rw [Path.steps_join_name hn, List.map_append, List.map_singleton] at hfollow
  obtain ⟨m, k, hm, hrest⟩ := FileTree.exists_directory_of_append hfollow
  rw [start?_join_name hn] at hd
  have hzero : '\x00' ∉ p.chars := by
    rw [Path.mem_chars_iff (by decide) (by decide)] at hnul ⊢
    rintro ⟨n', hn', hin⟩
    refine hnul ⟨n', ?_, hin⟩
    rw [Path.steps_join_name hn]
    exact List.mem_append_left _ hn'
  have hlocate : h.locate p = .ok (m, .directory) :=
    (locate_directory_iff hne).2 ⟨hzero, d, hd, hm⟩
  rw [list, hlocate]
  exact FileTree.mem_names_of_follow hn hrest

theorem isDirectory_eq (hne : p.chars ≠ []) (hstart : h.start? p = some d)
    (hsteps : p.steps = ns.map .name) :
    h.isDirectory p = (h.tree.directory? d ns).isSome := by
  have hiff := fun l => locate_eq_directory_iff (l := l) hne hstart hsteps
  cases hdir : h.tree.directory? d ns with
  | some l =>
    rw [isDirectory, (hiff l).2 hdir]
    rfl
  | none =>
    unfold isDirectory
    split
    · rename_i l hlocate
      rw [(hiff l).1 hlocate] at hdir
      cases hdir
    · rfl

theorem list_eq (hne : p.chars ≠ []) (hstart : h.start? p = some d)
    (hsteps : p.steps = ns.map .name) :
    h.list p = ((h.tree.directory? d ns).map h.tree.names).getD [] := by
  have hiff := fun l => locate_eq_directory_iff (l := l) hne hstart hsteps
  cases hdir : h.tree.directory? d ns with
  | some l =>
    rw [list, (hiff l).2 hdir]
    rfl
  | none =>
    unfold list
    split
    · rename_i l hlocate
      rw [(hiff l).1 hlocate] at hdir
      cases hdir
    · rfl

end Host

end CompileCommands
