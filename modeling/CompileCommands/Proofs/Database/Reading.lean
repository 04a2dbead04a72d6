import CompileCommands.Proofs.Database.Answers
import CompileCommands.Proofs.Host.Changes
/-!
# Databases and what has been read of them

A database that has been read, wholly or in part, answers as it did
before. What it then is, is compared through `loaded`: two databases that
become the same once all is read that can be read have the same answers
(`commands_loaded`, `find_loaded`), and reading leads from one such
database to another (`loaded_readThrough`). When files change, an unread
file is all that can make a difference (`loaded_loaded`).
-/

namespace CompileCommands

namespace Database

variable {h h' : Host} {p : Path}

mutual

/-- The database with everything read that can be. -/
def loaded (h : Host) : Database → Database
  | null => null
  | memory held => memory held
  | json file kept => json file (fileCommands h file kept).toOption
  | aggregate parts => aggregate (loadedAll h parts)

/-- Several databases with everything read that can be. -/
def loadedAll (h : Host) : List Database → List Database
  | [] => []
  | d :: ds => d.loaded h :: loadedAll h ds

end

mutual

/-- The files that a database is kept in. -/
def sources : Database → List Path
  | null => []
  | memory _ => []
  | json file _ => [file]
  | aggregate parts => sourcesAll parts

/-- The files that several databases are kept in. -/
def sourcesAll : List Database → List Path
  | [] => []
  | d :: ds => d.sources ++ sourcesAll ds

end

mutual

/-- The files of a database that have not been read. -/
def unread : Database → List Path
  | null => []
  | memory _ => []
  | json file none => [file]
  | json _ (some _) => []
  | aggregate parts => unreadAll parts

/-- The files of several databases that have not been read. -/
def unreadAll : List Database → List Path
  | [] => []
  | d :: ds => d.unread ++ unreadAll ds

end

theorem mem_unreadAll {f : Path} {ds : List Database} :
    f ∈ unreadAll ds ↔ ∃ d ∈ ds, f ∈ d.unread := by
  induction ds with
  | nil => simp [unreadAll]
  | cons d ds ih => rw [unreadAll, List.mem_append, ih, List.exists_mem_cons_iff]

theorem mem_sourcesAll {f : Path} {ds : List Database} :
    f ∈ sourcesAll ds ↔ ∃ d ∈ ds, f ∈ d.sources := by
  induction ds with
  | nil => simp [sourcesAll]
  | cons d ds ih => rw [sourcesAll, List.mem_append, ih, List.exists_mem_cons_iff]

/-! ## Everything read -/

theorem loadedAll_eq_map (h : Host) (ds : List Database) :
    loadedAll h ds = ds.map (loaded h) := by
  induction ds with
  | nil => rfl
  | cons d ds ih => rw [loadedAll, ih, List.map_cons]

/-- What has been read of a file is what the file holds. -/
theorem fileCommands_toOption (h : Host) (file : Path) (kept : Option (List CompileCommand)) :
    fileCommands h file (fileCommands h file kept).toOption = fileCommands h file kept := by
  cases hfile : fileCommands h file kept with
  | ok held => rfl
  | error e =>
    cases kept with
    | some held => cases hfile
    | none => exact hfile

mutual

/-- **Everything read, the same commands.** -/
theorem commands_loaded (h : Host) : ∀ d : Database, (d.loaded h).commands h = d.commands h
  | null => rfl
  | memory _ => rfl
  | json file kept => fileCommands_toOption h file kept
  | aggregate parts => commandsAll_loadedAll h parts

theorem commandsAll_loadedAll (h : Host) :
    ∀ ds : List Database, commandsAll h (loadedAll h ds) = commandsAll h ds
  | [] => rfl
  | d :: ds => by
    rw [loadedAll, commandsAll, commandsAll, commands_loaded h d, commandsAll_loadedAll h ds]

end

mutual

/-- And the same commands for each file. -/
theorem find_loaded (h : Host) (p : Path) : ∀ d : Database, (d.loaded h).find h p = d.find h p
  | null => rfl
  | memory _ => rfl
  | json file kept => by rw [loaded, find, find, fileCommands_toOption]
  | aggregate parts => findAll_loadedAll h p parts

theorem findAll_loadedAll (h : Host) (p : Path) :
    ∀ ds : List Database, findAll h p (loadedAll h ds) = findAll h p ds
  | [] => rfl
  | d :: ds => by
    rw [loadedAll, findAll, findAll, find_loaded h p d, findAll_loadedAll h p ds]

end

theorem isUnique_loaded (h : Host) (d : Database) : (d.loaded h).isUnique = d.isUnique := by
  cases d <;> rfl

/-! ## Reading -/

mutual

/-- **Reading a database keeps what it is** once everything is read. -/
theorem loaded_readThrough (h : Host) :
    ∀ d : Database, (d.readThrough h).1.loaded h = d.loaded h
  | null => rfl
  | memory _ => rfl
  | json _ (some _) => rfl
  | json file none => by
    unfold readThrough
    cases hload : CommandFile.load h file with
    | ok held => simp [loaded, fileCommands, hload, Except.toOption]
    | error e => rfl
  | aggregate parts => congrArg aggregate (loadedAll_readAll h parts)

theorem loadedAll_readAll (h : Host) :
    ∀ ds : List Database, loadedAll h (readAll h ds).1 = loadedAll h ds
  | [] => rfl
  | d :: ds => by
    have hd := loaded_readThrough h d
    have hds := loadedAll_readAll h ds
    rw [readAll]
    cases hread : d.readThrough h with
    | mk d' done =>
      rw [hread] at hd
      cases done with
      | false => rw [loadedAll, loadedAll, hd]
      | true => rw [loadedAll, loadedAll, hd, hds]

end

theorem loaded_read (h : Host) (d : Database) : (d.read h).loaded h = d.loaded h :=
  loaded_readThrough h d

/-- So it answers as it did before. -/
theorem commands_read (h : Host) (d : Database) : (d.read h).commands h = d.commands h := by
  rw [← commands_loaded, loaded_read, commands_loaded]

theorem find_read (h : Host) (p : Path) (d : Database) : (d.read h).find h p = d.find h p := by
  rw [← find_loaded, loaded_read, find_loaded]

mutual

/-- **A database that can be read is read**, and no file of it is left
over. -/
theorem unread_readThrough (h : Host) : ∀ (d : Database) {cs : List CompileCommand},
    d.commands h = .ok cs → (d.readThrough h).2 = true ∧ (d.readThrough h).1.unread = []
  | null, _, _ => ⟨rfl, rfl⟩
  | memory _, _, _ => ⟨rfl, rfl⟩
  | json _ (some _), _, _ => ⟨rfl, rfl⟩
  | json file none, _, hcs => by
    have hload : CommandFile.load h file = .ok _ := hcs
    simp [readThrough, hload, unread]
  | aggregate parts, _, hcs => unreadAll_readAll h parts hcs

theorem unreadAll_readAll (h : Host) : ∀ (ds : List Database) {cs : List CompileCommand},
    commandsAll h ds = .ok cs → (readAll h ds).2 = true ∧ unreadAll (readAll h ds).1 = []
  | [], _, _ => ⟨rfl, rfl⟩
  | d :: ds, _, hcs => by
    obtain ⟨xs, ys, hxs, hys, -⟩ := chain_eq_ok.1 hcs
    obtain ⟨hdone, hd⟩ := unread_readThrough h d hxs
    obtain ⟨hall, hds⟩ := unreadAll_readAll h ds hys
    rw [readAll]
    cases hread : d.readThrough h with
    | mk d' done =>
      rw [hread] at hdone hd
      cases done with
      | false => cases hdone
      | true => exact ⟨hall, List.append_eq_nil_iff.2 ⟨hd, hds⟩⟩

end

mutual

theorem unread_readThrough_subset (h : Host) :
    ∀ d : Database, (d.readThrough h).1.unread ⊆ d.unread
  | null => List.Subset.refl _
  | memory _ => List.Subset.refl _
  | json _ (some _) => List.Subset.refl _
  | json file none => by
    unfold readThrough
    cases CommandFile.load h file with
    | ok held => exact List.nil_subset _
    | error e => exact List.Subset.refl _
  | aggregate parts => unreadAll_readAll_subset h parts

theorem unreadAll_readAll_subset (h : Host) :
    ∀ ds : List Database, unreadAll (readAll h ds).1 ⊆ unreadAll ds
  | [] => List.Subset.refl _
  | d :: ds => by
    have hd := unread_readThrough_subset h d
    have hds := unreadAll_readAll_subset h ds
    rw [readAll]
    cases hread : d.readThrough h with
    | mk d' done =>
      rw [hread] at hd
      cases done with
      | false =>
        exact List.append_subset.2
          ⟨List.Subset.trans hd (List.subset_append_left _ _), List.subset_append_right _ _⟩
      | true =>
        exact List.append_subset.2
          ⟨List.Subset.trans hd (List.subset_append_left _ _),
            List.Subset.trans hds (List.subset_append_right _ _)⟩

end

/-! ## When files change -/

mutual

theorem unread_subset_sources : ∀ d : Database, d.unread ⊆ d.sources
  | null => List.Subset.refl _
  | memory _ => List.Subset.refl _
  | json _ (some _) => List.nil_subset _
  | json _ none => List.Subset.refl _
  | aggregate parts => unreadAll_subset_sourcesAll parts

theorem unreadAll_subset_sourcesAll : ∀ ds : List Database, unreadAll ds ⊆ sourcesAll ds
  | [] => List.Subset.refl _
  | d :: ds => List.append_subset.2
      ⟨List.Subset.trans (unread_subset_sources d) (List.subset_append_left _ _),
        List.Subset.trans (unreadAll_subset_sourcesAll ds) (List.subset_append_right _ _)⟩

end

mutual

theorem sources_loaded (h : Host) : ∀ d : Database, (d.loaded h).sources = d.sources
  | null => rfl
  | memory _ => rfl
  | json _ _ => rfl
  | aggregate parts => sourcesAll_loadedAll h parts

theorem sourcesAll_loadedAll (h : Host) :
    ∀ ds : List Database, sourcesAll (loadedAll h ds) = sourcesAll ds
  | [] => rfl
  | d :: ds => by
    rw [loadedAll, sourcesAll, sourcesAll, sources_loaded h d, sourcesAll_loadedAll h ds]

end

/-- Whether the files that could be read hold what they held. -/
def Kept (h h' : Host) (files : List Path) : Prop :=
  ∀ f ∈ files, ∀ cs, CommandFile.load h f = .ok cs → CommandFile.load h' f = .ok cs

/-- Whether files that lead somewhere are apart from others. -/
def Clear (h : Host) (files written : List Path) : Prop :=
  ∀ f ∈ files, (h.spot f).isOk → ∀ p ∈ written, h.Apart f p

theorem Clear.mono {files files' written written' : List Path} (hc : Clear h files written)
    (hfiles : files' ⊆ files) (hwritten : written' ⊆ written) : Clear h files' written' :=
  fun f hf hok p hp => hc f (hfiles hf) hok p (hwritten hp)

theorem Clear.host {P : Location → Prop} {files written : List Path} (hc : Clear h files written)
    (hh : h.AlikeBut P h') : Clear h' files written :=
  fun f hf hok p hp => hh.apart (hc f hf ((hh.follow f).2.1.symm.trans hok) p hp)

/-- **Files that are clear of what is written are kept.** -/
theorem Clear.kept {files written : List Path} (hc : Clear h files written)
    (hh : Host.AlikeButFiles written h h') : Kept h h' files := by
  intro f hf cs hcs
  rw [hh.load (hc f hf (Host.isOk_spot_of_load hcs)), hcs]

mutual

/-- **Read before or after, the same**, as long as the files that have not
been read hold what they held. -/
theorem loaded_loaded : ∀ d : Database, Kept h h' d.unread → (d.loaded h).loaded h' = d.loaded h'
  | null, _ => rfl
  | memory _, _ => rfl
  | json _ (some _), _ => rfl
  | json file none, hkept => by
    have hfile := hkept file (List.mem_singleton_self file)
    cases hload : CommandFile.load h file with
    | ok held => simp only [loaded, fileCommands, hload, hfile held hload, Except.toOption]
    | error e => simp only [loaded, fileCommands, hload, Except.toOption]
  | aggregate parts, hkept => congrArg aggregate (loadedAll_loadedAll parts hkept)

theorem loadedAll_loadedAll : ∀ ds : List Database, Kept h h' (unreadAll ds) →
    loadedAll h' (loadedAll h ds) = loadedAll h' ds
  | [], _ => rfl
  | d :: ds, hkept => by
    rw [loadedAll, loadedAll, loadedAll,
      loaded_loaded d fun f hf => hkept f (List.mem_append_left _ hf),
      loadedAll_loadedAll ds fun f hf => hkept f (List.mem_append_right _ hf)]

end

mutual

/-- **A database holds what it held** if the files that have not been read
do. -/
theorem commands_congr : ∀ d : Database,
    (∀ f ∈ d.unread, CommandFile.load h' f = CommandFile.load h f) → d.commands h' = d.commands h
  | null, _ => rfl
  | memory _, _ => rfl
  | json _ (some _), _ => rfl
  | json file none, hfiles => hfiles file (List.mem_singleton_self file)
  | aggregate parts, hfiles => commandsAll_congr parts hfiles

theorem commandsAll_congr : ∀ ds : List Database,
    (∀ f ∈ unreadAll ds, CommandFile.load h' f = CommandFile.load h f) →
      commandsAll h' ds = commandsAll h ds
  | [], _ => rfl
  | d :: ds, hfiles => by
    rw [commandsAll, commandsAll,
      commands_congr d fun f hf => hfiles f (List.mem_append_left _ hf),
      commandsAll_congr ds fun f hf => hfiles f (List.mem_append_right _ hf)]

end

mutual

/-- And finds what it found, if the host sees the path as before. -/
theorem find_congr (habs : h'.absolutePath p = h.absolutePath p)
    (hlog : h'.logicalPath p = h.logicalPath p) : ∀ d : Database,
    (∀ f ∈ d.unread, CommandFile.load h' f = CommandFile.load h f) → d.find h' p = d.find h p
  | null, _ => rfl
  | memory _, _ => by rw [find, find, habs]
  | json _ (some _), _ => by rw [find, find, hlog]; rfl
  | json file none, hfiles => by
    rw [find, find, hlog, fileCommands, fileCommands, hfiles file (List.mem_singleton_self file)]
  | aggregate parts, hfiles => findAll_congr habs hlog parts hfiles

theorem findAll_congr (habs : h'.absolutePath p = h.absolutePath p)
    (hlog : h'.logicalPath p = h.logicalPath p) : ∀ ds : List Database,
    (∀ f ∈ unreadAll ds, CommandFile.load h' f = CommandFile.load h f) →
      findAll h' p ds = findAll h p ds
  | [], _ => rfl
  | d :: ds, hfiles => by
    rw [findAll, findAll,
      find_congr habs hlog d fun f hf => hfiles f (List.mem_append_left _ hf),
      findAll_congr habs hlog ds fun f hf => hfiles f (List.mem_append_right _ hf)]

end

end Database

end CompileCommands
