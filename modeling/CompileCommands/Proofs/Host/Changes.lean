import CompileCommands.CommandFile.Load
import CompileCommands.Host.Paths
import CompileCommands.Proofs.FileTree.Changes
/-!
# Hosts that differ in files only

What a host becomes when files are written. Paths lead where they led,
and what is read under a path is what was read before, unless the path
stops where something has been written. Two paths are apart if they stop
at different locations, so writing one leaves what the other leads to.
-/

namespace CompileCommands

namespace Host

variable {h h' h'' : Host} {P Q : Location → Prop} {p q : Path} {l : Location}
variable {files files' : List Path}

/-! ## Where paths stop -/

/-- The location at which following a path ends. A path that cannot be
followed at all has none. -/
def stop? (h : Host) (p : Path) : Option Location :=
  if p.chars.contains '\x00' || p.chars.isEmpty then none
  else (h.start? p).map fun d =>
    h.tree.stop FileTree.linkLimit d (Text.fields (· == '/') p.chars)

/-- Whether two paths stop at different locations. -/
def Apart (h : Host) (p q : Path) : Prop := ∀ l, h.stop? p = some l → h.stop? q ≠ some l

theorem Apart.symm (hpq : h.Apart p q) : h.Apart q p := fun l hq hp => hpq l hp hq

/-- A path sets out from the same location whatever the tree is, or does
not set out at all. -/
theorem spot_cases (h : Host) (p : Path) :
    (∃ d, ∀ t, ({ h with tree := t } : Host).stop? p =
          some (t.stop FileTree.linkLimit d (Text.fields (· == '/') p.chars)) ∧
        ({ h with tree := t } : Host).spot p =
          t.follow FileTree.linkLimit d (Text.fields (· == '/') p.chars)) ∨
      ∃ e, ∀ t, ({ h with tree := t } : Host).stop? p = none ∧
        ({ h with tree := t } : Host).spot p = .error e := by
  cases hnul : p.chars.contains '\x00' with
  | true => exact .inr ⟨.nulInName, fun t => by simp only [stop?, spot, hnul]; exact ⟨rfl, rfl⟩⟩
  | false =>
    cases hempty : p.chars.isEmpty with
    | true =>
      exact .inr ⟨.notFound, fun t => by simp only [stop?, spot, hnul, hempty]; exact ⟨rfl, rfl⟩⟩
    | false =>
      cases habs : p.isAbsolute with
      | true =>
        refine .inl ⟨[], fun t => ?_⟩
        simp only [stop?, spot, start?, hnul, hempty, habs]
        exact ⟨rfl, rfl⟩
      | false =>
        cases h.directory with
        | none =>
          refine .inr ⟨.notFound, fun t => ?_⟩
          simp only [stop?, spot, start?, hnul, hempty, habs]
          exact ⟨rfl, rfl⟩
        | some d =>
          refine .inl ⟨d, fun t => ?_⟩
          simp only [stop?, spot, start?, hnul, hempty, habs]
          exact ⟨rfl, rfl⟩

theorem stop?_of_spot {s : Spot} (hs : h.spot p = .ok s) : h.stop? p = some s.location := by
  rcases h.spot_cases p with ⟨d, hd⟩ | ⟨e, he⟩
  · obtain ⟨hstop, hspot⟩ := hd h.tree
    rw [show h.spot p = _ from hspot] at hs
    rw [show h.stop? p = _ from hstop, FileTree.location_of_follow hs]
  · rw [show h.spot p = .error e from (he h.tree).2] at hs
    cases hs

theorem stop?_of_locate {e : Entry} (hp : h.locate p = .ok (l, e)) : h.stop? p = some l := by
  unfold locate at hp
  cases hspot : h.spot p with
  | error e' => rw [hspot] at hp; cases hp
  | ok s =>
    rw [hspot] at hp
    cases s with
    | vacant m => cases hp
    | taken m e' =>
      cases hp
      exact stop?_of_spot hspot

/-- What stands at different locations is apart. -/
theorem apart_of_locate {m : Location} {e e' : Entry} (hp : h.locate p = .ok (l, e))
    (hq : h.locate q = .ok (m, e')) (hne : l ≠ m) : h.Apart p q := by
  intro k hk hk'
  rw [stop?_of_locate hp] at hk
  rw [stop?_of_locate hq] at hk'
  exact hne (Option.some.inj (hk.trans hk'.symm))

/-- Whether a path leads to a location, where something stands or can be
made. -/
def LeadsTo (h : Host) (p : Path) (l : Location) : Prop := ∃ s, h.spot p = .ok s ∧ s.location = l

/-- Whether two paths lead to one location. -/
def Meet (h : Host) (p q : Path) : Prop := ∃ l, h.LeadsTo p l ∧ h.LeadsTo q l

/-- A path leads to where it stops, if it leads anywhere. -/
theorem leadsTo_iff : h.LeadsTo p l ↔ (h.spot p).isOk ∧ h.stop? p = some l := by
  constructor
  · rintro ⟨s, hs, rfl⟩
    exact ⟨by rw [hs]; rfl, stop?_of_spot hs⟩
  · rintro ⟨hok, hl⟩
    cases hs : h.spot p with
    | error e =>
      rw [hs] at hok
      cases hok
    | ok s =>
      rw [stop?_of_spot hs] at hl
      exact ⟨s, hs, Option.some.inj hl⟩

/-! ## Hosts that are alike -/

/-- Whether two hosts are the same but for files at the locations in
`P`. -/
structure AlikeBut (P : Location → Prop) (h h' : Host) : Prop where
  eq : h' = { h with tree := h'.tree }
  tree : h.tree.AlikeBut P h'.tree

theorem AlikeBut.refl (P : Location → Prop) (h : Host) : h.AlikeBut P h :=
  ⟨rfl, FileTree.AlikeBut.refl P h.tree⟩

theorem AlikeBut.symm (hh : h.AlikeBut P h') : h'.AlikeBut P h :=
  ⟨by rw [hh.eq], hh.tree.symm⟩

theorem AlikeBut.trans (hh : h.AlikeBut P h') (hh' : h'.AlikeBut P h'') : h.AlikeBut P h'' :=
  ⟨by rw [hh'.eq, hh.eq], hh.tree.trans hh'.tree⟩

theorem AlikeBut.mono (hh : h.AlikeBut P h') (hPQ : ∀ l, P l → Q l) : h.AlikeBut Q h' :=
  ⟨hh.eq, hh.tree.mono hPQ⟩

/-- Alike hosts differ only where their trees do. -/
theorem AlikeBut.differ (hh : h.AlikeBut P h') :
    h.AlikeBut (fun l => h'.tree.entry? l ≠ h.tree.entry? l) h' := by
  refine ⟨hh.eq, fun l => ?_⟩
  by_cases heq : h'.tree.entry? l = h.tree.entry? l
  · exact .inl heq
  · exact .inr ⟨heq, ((hh.tree l).resolve_left heq).2⟩

/-- **The same way on both hosts.** A path stops at the same location,
leads somewhere on both or on neither, and leads to the same unless it
stops where they differ. -/
theorem AlikeBut.follow (hh : h.AlikeBut P h') (p : Path) :
    h'.stop? p = h.stop? p ∧ (h'.spot p).isOk = (h.spot p).isOk ∧
      ((∀ l, h.stop? p = some l → ¬ P l) → h'.spot p = h.spot p) := by
  rw [hh.eq]
  rcases h.spot_cases p with ⟨d, hd⟩ | ⟨e, he⟩
  · obtain ⟨hstop, hok, hsame⟩ :=
      hh.tree.follow FileTree.linkLimit d (Text.fields (· == '/') p.chars)
    rw [(hd h'.tree).1, (hd h'.tree).2, show h.stop? p = _ from (hd h.tree).1,
      show h.spot p = _ from (hd h.tree).2]
    exact ⟨congrArg some hstop, hok, fun hp => hsame (hp _ rfl)⟩
  · rw [(he h'.tree).1, (he h'.tree).2, show h.stop? p = _ from (he h.tree).1,
      show h.spot p = _ from (he h.tree).2]
    exact ⟨rfl, rfl, fun _ => rfl⟩

theorem AlikeBut.stop? (hh : h.AlikeBut P h') (p : Path) : h'.stop? p = h.stop? p :=
  (hh.follow p).1

theorem AlikeBut.spot (hh : h.AlikeBut P h') (hp : ∀ l, h.stop? p = some l → ¬ P l) :
    h'.spot p = h.spot p :=
  (hh.follow p).2.2 hp

theorem AlikeBut.locate (hh : h.AlikeBut P h') (hp : ∀ l, h.stop? p = some l → ¬ P l) :
    h'.locate p = h.locate p := by
  rw [Host.locate, Host.locate, hh.spot hp]

theorem AlikeBut.load (hh : h.AlikeBut P h') (hp : ∀ l, h.stop? p = some l → ¬ P l) :
    CommandFile.load h' p = CommandFile.load h p := by
  rw [CommandFile.load, CommandFile.load, Host.read, Host.read, hh.locate hp]

theorem AlikeBut.apart (hh : h.AlikeBut P h') (hpq : h.Apart p q) : h'.Apart p q := by
  intro l hp hq
  rw [hh.stop?] at hp hq
  exact hpq l hp hq

/-- **Paths lead to the same locations** on both hosts. -/
theorem AlikeBut.leadsTo_iff (hh : h.AlikeBut P h') : h'.LeadsTo p l ↔ h.LeadsTo p l := by
  rw [Host.leadsTo_iff, Host.leadsTo_iff, (hh.follow p).2.1, hh.stop?]

theorem AlikeBut.meet_iff (hh : h.AlikeBut P h') : h'.Meet p q ↔ h.Meet p q :=
  exists_congr fun _ => and_congr hh.leadsTo_iff hh.leadsTo_iff

theorem AlikeBut.not_meet (hh : h.AlikeBut P h') (hpq : ¬ h.Meet p q) : ¬ h'.Meet p q :=
  fun hm => hpq (hh.meet_iff.1 hm)

/-- **What a path leads to is kept** with the location it leads to. A path
that leads nowhere still does. -/
theorem AlikeBut.toOption_locate (hh : h.AlikeBut P h') (hp : ∀ l, h.LeadsTo p l → ¬ P l) :
    (h'.locate p).toOption = (h.locate p).toOption := by
  obtain ⟨-, hok, hsame⟩ := hh.follow p
  cases hs : h.spot p with
  | ok s =>
    rw [Host.locate, Host.locate, hsame fun l hl => hp l (Host.leadsTo_iff.2 ⟨by rw [hs]; rfl, hl⟩)]
  | error e =>
    rw [hs] at hok
    rw [Host.locate, Host.locate, hs]
    cases hs' : h'.spot p with
    | ok s' =>
      rw [hs'] at hok
      cases hok
    | error e' => rfl

theorem read_eq_ok_iff {content : ByteArray} :
    h.read p = .ok content ↔ ∃ l, (h.locate p).toOption = some (l, .file content) := by
  unfold read
  cases h.locate p with
  | error e => simp [Except.toOption]
  | ok x =>
    obtain ⟨l, e⟩ := x
    cases e <;> simp [Except.toOption]

/-! ## Writing -/

/-- A spot for a file in a tree that agrees with it. -/
theorem isPlain_of_isFileSpot {t : FileTree} {s : Spot} (hs : FileTree.IsFileSpot l s)
    (ht : t.Agrees s) : FileTree.IsPlain (t.entry? l) := by
  rcases hs with rfl | ⟨c, rfl⟩
  · exact .inl ht
  · exact .inr ⟨c, ht (by simp)⟩

/-- **Writing changes the file where the path stops**, and nothing
else. -/
theorem alikeBut_of_write {content : ByteArray} (hw : h.write p content = .ok h') :
    h.AlikeBut (fun l => h.stop? p = some l) h' := by
  obtain ⟨s, l, t', hs, hfile, hput, rfl⟩ := write_cases hw
  have hlocation : s.location = l := by
    rcases hfile with rfl | ⟨c, rfl⟩ <;> rfl
  have hagrees : h.tree.Agrees s := by
    obtain ⟨-, -, d, -, hfollow⟩ := spot_eq_ok_iff.1 hs
    exact FileTree.agrees_of_follow hfollow
  refine ⟨rfl, (FileTree.alikeBut_of_put? hput (isPlain_of_isFileSpot hfile hagrees)).mono ?_⟩
  rintro m rfl
  rw [stop?_of_spot hs, hlocation]

/-- **Writing a file writes it under all its paths.** -/
theorem read_of_write_of_stop? {content held : ByteArray} (hw : h.write p content = .ok h')
    (hq : h.read q = .ok held) (hstop : h.stop? q = h.stop? p) : h'.read q = .ok content := by
  obtain ⟨s, l, t', hs, hfile, hput, rfl⟩ := write_cases hw
  obtain ⟨m, hm⟩ := spot_of_read hq
  have hlocation : m = l := by
    have hl : s.location = l := by rcases hfile with rfl | ⟨c, rfl⟩ <;> rfl
    rw [stop?_of_spot hs, stop?_of_spot hm, hl] at hstop
    exact Option.some.inj hstop
  subst hlocation
  obtain ⟨hnul, hempty, d, hd, hfollow⟩ := spot_eq_ok_iff.1 hm
  have hspot : ({ h with tree := t' } : Host).spot q = .ok (.taken m (.file content)) :=
    spot_eq_ok_iff.2 ⟨hnul, hempty, d, hd, FileTree.follow_put? hput hfollow (.inr ⟨held, rfl⟩)⟩
  simp only [read, locate, hspot]

/-- **A file can be replaced.** -/
theorem exists_write_of_read {held : ByteArray} (hread : h.read p = .ok held)
    (content : ByteArray) : ∃ h', h.write p content = .ok h' := by
  obtain ⟨l, hl⟩ := spot_of_read hread
  obtain ⟨-, -, d, -, hfollow⟩ := spot_eq_ok_iff.1 hl
  have hentry : h.tree.entry? l = some (.file held) :=
    FileTree.agrees_of_follow hfollow (by simp)
  have hne : l ≠ [] := by
    rintro rfl
    cases hentry
  have hmem := FileTree.mem_entries_of_entry? hne hentry
  have hfree : ¬ h.tree.HasDirectory l := by
    intro hdir
    rw [FileTree.entry?_of_hasDirectory hdir] at hentry
    cases hentry
  obtain ⟨t, ht⟩ : ∃ t, h.tree.put? l (.file content) = some t := by
    unfold FileTree.put?
    rw [dif_pos ⟨h.tree.proper _ hmem, h.tree.closed _ hmem, hfree⟩]
    exact ⟨_, rfl⟩
  refine ⟨{ h with tree := t }, ?_⟩
  rw [write, hl]
  simp only [ht]

/-- Writing a file leaves files files. -/
theorem exists_read_of_write {content held : ByteArray} (hw : h.write p content = .ok h')
    (hq : h.read q = .ok held) :
    ∃ held', h'.read q = .ok held' ∧ (held' = held ∨ held' = content) := by
  by_cases hstop : h.stop? q = h.stop? p
  · exact ⟨content, read_of_write_of_stop? hw hq hstop, .inr rfl⟩
  · refine ⟨held, ?_, .inl rfl⟩
    rw [← hq, read, read, (alikeBut_of_write hw).locate]
    exact fun l hl hl' => hstop (hl.trans hl'.symm)

/-! ## Writing several files -/

/-- Whether two hosts are the same but for what is at the given paths. -/
def AlikeButFiles (files : List Path) (h h' : Host) : Prop :=
  h.AlikeBut (fun l => ∃ f ∈ files, h.stop? f = some l) h'

theorem AlikeButFiles.refl (files : List Path) (h : Host) : AlikeButFiles files h h :=
  AlikeBut.refl _ h

theorem AlikeButFiles.mono (hh : AlikeButFiles files h h') (hsub : files ⊆ files') :
    AlikeButFiles files' h h' :=
  AlikeBut.mono hh fun _ ⟨f, hf, hl⟩ => ⟨f, hsub hf, hl⟩

theorem AlikeButFiles.trans (hh : AlikeButFiles files h h') (hh' : AlikeButFiles files' h' h'') :
    AlikeButFiles (files ++ files') h h'' := by
  have hlater : h'.AlikeBut (fun l => ∃ f ∈ files ++ files', h.stop? f = some l) h'' := by
    refine AlikeBut.mono hh' ?_
    rintro l ⟨f, hf, hl⟩
    exact ⟨f, List.mem_append_right _ hf, (AlikeBut.stop? hh f).symm.trans hl⟩
  exact AlikeBut.trans (hh.mono (List.subset_append_left _ _)) hlater

theorem AlikeButFiles.symm (hh : AlikeButFiles files h h') : AlikeButFiles files h' h :=
  (AlikeBut.symm hh).mono fun _ ⟨f, hf, hl⟩ => ⟨f, hf, (AlikeBut.stop? hh f).trans hl⟩

theorem alikeButFiles_of_write {content : ByteArray} (hw : h.write p content = .ok h') :
    AlikeButFiles [p] h h' :=
  (alikeBut_of_write hw).mono fun _ hl => ⟨p, List.mem_singleton_self p, hl⟩

theorem exists_read_of_load {cs : List CompileCommand} (hload : CommandFile.load h p = .ok cs) :
    ∃ content, h.read p = .ok content := by
  unfold CommandFile.load at hload
  cases hread : h.read p with
  | ok content => exact ⟨content, rfl⟩
  | error e =>
    rw [hread] at hload
    cases e <;> cases hload

theorem isOk_spot_of_load {cs : List CompileCommand} (hload : CommandFile.load h p = .ok cs) :
    (h.spot p).isOk := by
  obtain ⟨content, hread⟩ := exists_read_of_load hload
  obtain ⟨l, hl⟩ := spot_of_read hread
  rw [hl]
  rfl

/-- **What is apart from the changed files** loads as it did. -/
theorem AlikeButFiles.load (hh : AlikeButFiles files h h') (hp : ∀ f ∈ files, h.Apart p f) :
    CommandFile.load h' p = CommandFile.load h p :=
  AlikeBut.load hh fun l hl ⟨f, hf, hfl⟩ => hp f hf l hl hfl

/-! ## Writing where paths lead -/

/-- Whether files have been written only where the given paths lead. -/
def WrittenAt (files : List Path) (h h' : Host) : Prop :=
  h.AlikeBut (fun l => ∃ f ∈ files, h.LeadsTo f l) h'

theorem WrittenAt.refl (files : List Path) (h : Host) : WrittenAt files h h := AlikeBut.refl _ h

theorem WrittenAt.mono (hh : WrittenAt files h h') (hsub : files ⊆ files') :
    WrittenAt files' h h' :=
  AlikeBut.mono hh fun _ ⟨f, hf, hl⟩ => ⟨f, hsub hf, hl⟩

theorem WrittenAt.trans (hh : WrittenAt files h h') (hh' : WrittenAt files' h' h'') :
    WrittenAt (files ++ files') h h'' := by
  have hlater : h'.AlikeBut (fun l => ∃ f ∈ files ++ files', h.LeadsTo f l) h'' := by
    refine AlikeBut.mono hh' ?_
    rintro l ⟨f, hf, hl⟩
    exact ⟨f, List.mem_append_right _ hf, (AlikeBut.leadsTo_iff hh).1 hl⟩
  exact AlikeBut.trans (hh.mono (List.subset_append_left _ _)) hlater

theorem writtenAt_of_write {content : ByteArray} (hw : h.write p content = .ok h') :
    WrittenAt [p] h h' := by
  refine (alikeBut_of_write hw).mono fun l hl => ⟨p, List.mem_singleton_self p, ?_⟩
  obtain ⟨s, m, t', hs, -, -, -⟩ := write_cases hw
  exact leadsTo_iff.2 ⟨by rw [hs]; rfl, hl⟩

/-- **What is written elsewhere leaves a path alone.** -/
theorem WrittenAt.toOption_locate (hh : WrittenAt files h h') (hp : ∀ f ∈ files, ¬ h.Meet p f) :
    (h'.locate p).toOption = (h.locate p).toOption :=
  AlikeBut.toOption_locate hh fun l hl ⟨f, hf, hfl⟩ => hp f hf ⟨l, hl, hfl⟩

theorem WrittenAt.read {content : ByteArray} (hh : WrittenAt files h h')
    (hp : ∀ f ∈ files, ¬ h.Meet p f) (hread : h.read p = .ok content) :
    h'.read p = .ok content := by
  rw [read_eq_ok_iff, hh.toOption_locate hp]
  exact read_eq_ok_iff.1 hread

/-! ## The working directory -/

/-- Whether the working directory is a directory of the tree. -/
def HasWorkingDirectory (h : Host) : Prop :=
  ∀ d, h.directory = some d → h.tree.entry? d = some .directory

theorem AlikeBut.hasWorkingDirectory (hh : h.AlikeBut P h') (hdir : h.HasWorkingDirectory) :
    h'.HasWorkingDirectory := by
  intro d hd
  have hentry := hdir d (by rw [hh.eq] at hd; exact hd)
  exact (hh.tree.of_ne (by rw [hentry]; exact FileTree.not_isPlain_directory)).trans hentry

theorem namesDirectory_iff :
    h.namesDirectory p = true ↔
      ∃ d e, h.directory = some d ∧ h.spot p = .ok (.taken d e) := by
  unfold namesDirectory locate
  cases h.spot p with
  | error e => simp
  | ok s =>
    cases h.directory with
    | none => cases s <;> simp
    | some d =>
      cases s with
      | vacant l => simp
      | taken l e => simp

/-- What leads to the working directory stops at a directory, which no
writing changes. -/
theorem AlikeBut.namesDirectory_of (hh : h.AlikeBut P h') (hdir : h.HasWorkingDirectory)
    (hp : h.namesDirectory p = true) : h'.namesDirectory p = true := by
  obtain ⟨d, e, hd, hspot⟩ := namesDirectory_iff.1 hp
  have hentry := hdir d hd
  have hkept : h'.tree.entry? d = h.tree.entry? d :=
    hh.tree.of_ne (by rw [hentry]; exact FileTree.not_isPlain_directory)
  refine namesDirectory_iff.2 ⟨d, e, by rw [hh.eq]; exact hd, ?_⟩
  rw [← hspot]
  refine hh.differ.spot fun l hl hne => hne ?_
  obtain rfl : d = l := Option.some.inj ((stop?_of_spot hspot).symm.trans hl)
  exact hkept

theorem AlikeBut.namesDirectory (hh : h.AlikeBut P h') (hdir : h.HasWorkingDirectory)
    (p : Path) : h'.namesDirectory p = h.namesDirectory p :=
  Bool.eq_iff_iff.2
    ⟨hh.symm.namesDirectory_of (hh.hasWorkingDirectory hdir), hh.namesDirectory_of hdir⟩

/-- **Paths are seen as before**, absolute or from the working
directory. -/
theorem AlikeBut.absolutePath (hh : h.AlikeBut P h') (p : Path) :
    h'.absolutePath p = h.absolutePath p := by
  rw [hh.eq]
  rfl

theorem AlikeBut.logicalPath (hh : h.AlikeBut P h') (hdir : h.HasWorkingDirectory) (p : Path) :
    h'.logicalPath p = h.logicalPath p := by
  have hlogical : h'.logicalDirectory = h.logicalDirectory := by rw [hh.eq]
  unfold Host.logicalPath
  rw [hlogical]
  simp only [hh.namesDirectory hdir, hh.absolutePath p]

end Host

end CompileCommands
