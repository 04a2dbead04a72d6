import CompileCommands.Headers.Inference
import CompileCommands.Proofs.Path.Relative
/-!
# What a header is called

Headers are found under canonical absolute paths, and a command that is
lent to such a path is a command for that path, however the lender spells
its own file. So a run that tells headers apart by their paths tells the
commands apart that it infers.
-/

namespace CompileCommands

variable {h : Host} {c : CompileCommand} {p q : Path}

namespace CompileCommand

/-- A lender that names its own file in full names any other in full. -/
theorem normalizedFile_lentTo_of_isAbsolute_file (hc : c.file.isAbsolute = true)
    (hp : p.IsCanonical) : (c.lentTo h p).normalizedFile = p := by
  change Path.normalizeIn c.directory (p.spelledLike h c.file c.directory) = p
  have hjoin : c.directory.join p = p := by rw [Path.join, if_pos hp.1]
  rw [Path.spelledLike, if_pos hc, hjoin, Path.normalizeIn, hjoin, hp.2]

/-- **Lending keeps the file.** The spelling follows the lender's, the
path it stands for is the one that was asked for. -/
theorem normalizedFile_lentTo (hc : c.directory.isAbsolute = true) (hp : p.IsCanonical) :
    (c.lentTo h p).normalizedFile = p := by
  by_cases hfile : c.file.isAbsolute = true
  · exact normalizedFile_lentTo_of_isAbsolute_file hfile hp
  · change Path.normalizeIn c.directory (p.spelledLike h c.file c.directory) = p
    rw [Path.spelledLike, if_neg hfile, if_pos hp.1]
    exact Host.normalizeIn_relativePath hp hc

/-- Lending keeps the file even in a relative directory, if the lender's
own path is absolute. -/
theorem normalizedFile_lentTo_of_isAbsolute_normalizedFile
    (hc : c.normalizedFile.isAbsolute = true) (hp : p.IsCanonical) :
    (c.lentTo h p).normalizedFile = p := by
  rw [normalizedFile, Path.normalizeIn, Path.isAbsolute_normalize, Path.isAbsolute_join,
    Bool.or_eq_true] at hc
  rcases hc with hdirectory | hfile
  · exact normalizedFile_lentTo hdirectory hp
  · exact normalizedFile_lentTo_of_isAbsolute_file hfile hp

theorem isCanonical_normalizedFile (hc : c.directory.isAbsolute = true) :
    c.normalizedFile.IsCanonical :=
  Path.isCanonical_normalizeIn hc c.file

end CompileCommand

/-! ## Where headers are looked for -/

/-- A file that includes something can be read. -/
theorem Host.exists_read_of_includesOf (hne : h.includesOf p ≠ []) :
    ∃ content, h.read p = .ok content := by
  unfold includesOf at hne
  cases hread : h.read p with
  | error e => rw [hread] at hne; exact absurd rfl hne
  | ok content => exact ⟨content, rfl⟩

theorem Path.isAbsolute_parent? (hp : p.isAbsolute = true) (hq : p.parent? = some q) :
    q.isAbsolute = true := by
  have hlead : p.lead = some .root := by
    obtain ⟨cs, hcs⟩ := Path.isAbsolute_iff.1 hp
    simp only [Path.lead, hcs]
  unfold Path.parent? at hq
  rw [hlead] at hq
  split at hq
  · rename_i hl
    cases hl
  · cases hq
  · obtain rfl := Option.some.inj hq
    exact Path.isAbsolute_iff.2 ⟨_, String.toList_ofList⟩

namespace Include

variable {i : Include} {f : Path} {directories : List Path}

/-- An include of an absolute path is looked for in absolute
directories. -/
theorem isAbsolute_of_mem_places (hf : f.isAbsolute = true)
    (hdirectories : ∀ d ∈ directories, d.isAbsolute = true) (hp : p ∈ i.places f directories) :
    p.isAbsolute = true := by
  have hown : p ∈ (ownDirectory? f).toList → p.isAbsolute = true := by
    intro hp
    have hparent := (Option.filter_eq_some_iff.1 (Option.mem_toList.1 hp)).1
    exact Path.isAbsolute_parent? hf hparent
  unfold places at hp
  split at hp
  · rcases List.mem_append.1 hp with hp | hp
    · exact hown hp
    · exact hdirectories p hp
  · exact hdirectories p hp

/-- **Included files are found under canonical absolute paths.** -/
theorem isCanonical_of_file? (hf : f.isAbsolute = true)
    (hdirectories : ∀ d ∈ directories, d.isAbsolute = true)
    (hp : i.file? h f directories = some p) : p.IsCanonical := by
  obtain ⟨d, hd, rfl⟩ := Option.map_eq_some_iff.1 hp
  exact Path.isCanonical_normalizeIn
    (isAbsolute_of_mem_places hf hdirectories (List.mem_of_find?_eq_some hd)) _

/-- An include is found in the first place where it stands. -/
theorem file?_of_isFile {d : Path} {ds : List Path} (hplaces : i.places f directories = d :: ds)
    (hfile : h.isFile (d.join ⟨i.name⟩) = true) :
    i.file? h f directories = some (Path.normalizeIn d ⟨i.name⟩) := by
  have hfind : (d :: ds).find? (fun d => h.isFile (d.join ⟨i.name⟩)) = some d :=
    List.find?_cons_of_pos hfile
  rw [file?, directory?, hplaces, hfind]
  rfl

/-- An include is not found where there is no place to look for it. -/
theorem file?_eq_none (hplaces : i.places f directories = []) : i.file? h f directories = none := by
  rw [file?, directory?, hplaces]
  rfl

end Include

namespace CompileCommand

theorem isAbsolute_of_mem_searchDirectories (hc : c.directory.isAbsolute = true) :
    ∀ d ∈ c.searchDirectories, d.isAbsolute = true := by
  intro d hd
  obtain ⟨n, -, rfl⟩ := List.mem_map.1 hd
  rw [Path.isAbsolute_join, hc, Bool.true_or]

/-- **Headers are found under canonical absolute paths.** -/
theorem isCanonical_of_mem_includedFiles (hc : c.directory.isAbsolute = true)
    (hp : p ∈ c.includedFiles h) : p.IsCanonical := by
  obtain ⟨i, -, hi⟩ := List.mem_filterMap.1 hp
  exact Include.isCanonical_of_file? (isCanonical_normalizedFile hc).1
    (isAbsolute_of_mem_searchDirectories hc) hi

/-- What a file with one include leads to, found in the first place where
it is looked for. -/
theorem includedFiles_of_isFile {i : Include} {content : ByteArray} {d : Path} {ds : List Path}
    (hread : h.read c.normalizedFile = .ok content)
    (hcontent : Include.ofContent content.toList = [i])
    (hplaces : i.places c.normalizedFile c.searchDirectories = d :: ds)
    (hfile : h.isFile (d.join ⟨i.name⟩) = true) :
    c.includedFiles h = [Path.normalizeIn d ⟨i.name⟩] := by
  have hincludes : h.includesOf c.normalizedFile = [i] := by
    simp only [Host.includesOf, hread, hcontent]
  rw [includedFiles, hincludes]
  simp only [List.filterMap_cons, Include.file?_of_isFile hplaces hfile, List.filterMap_nil]

theorem normalize_of_mem_includedFiles (hp : p ∈ c.includedFiles h) : p.normalize = p := by
  obtain ⟨i, -, hi⟩ := List.mem_filterMap.1 hp
  obtain ⟨d, -, rfl⟩ := Option.map_eq_some_iff.1 hi
  exact Path.normalize_normalize _

/-- **A command that is lent to a header** is one for that header, or for
no absolute path. Its directory may be relative. -/
theorem normalizedFile_lentTo_of_isAbsolute (hp : p ∈ c.includedFiles h)
    (habs : (c.lentTo h p).normalizedFile.isAbsolute = true) :
    (c.lentTo h p).normalizedFile = p := by
  cases hdir : c.directory.isAbsolute with
  | true => exact normalizedFile_lentTo hdir (isCanonical_of_mem_includedFiles hdir hp)
  | false =>
    have hnormal := normalize_of_mem_includedFiles hp
    have hspelled : (c.lentTo h p).normalizedFile =
        Path.normalizeIn c.directory (p.spelledLike h c.file c.directory) := rfl
    rw [hspelled] at habs ⊢
    rw [Path.normalizeIn, Path.isAbsolute_normalize, Path.isAbsolute_join, hdir, Bool.false_or]
      at habs
    rw [Path.normalizeIn, Path.join, if_pos habs]
    unfold Path.spelledLike at habs ⊢
    split at habs
    · -- spelled in full, which a relative directory does not do to a relative path
      rename_i hfile
      rw [Path.isAbsolute_join, hdir, Bool.false_or] at habs
      rw [if_pos hfile, Path.join, if_pos habs, hnormal]
    · rename_i hfile
      rw [if_neg hfile]
      split at habs
      · rename_i hpath
        rw [if_pos hpath]
        exact Host.normalize_relativePath_of_isAbsolute ⟨hpath, hnormal⟩ habs
      · rename_i hpath
        exact absurd habs hpath

end CompileCommand

end CompileCommands
