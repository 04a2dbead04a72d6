import CompileCommands.Layers.Basic
import CompileCommands.Proofs.Database.Reading
/-!
# Stacks of layers and what has been read of them

Two stacks are alike on a host if they are the same once everything is
read that can be. Alike stacks answer every question alike
(`Alike.find`, `Alike.files`, `Alike.commands`, `Alike.contents`), have
as many layers and as many databases in each, and whatever reads a stack
leaves one that is alike. They stay alike on another host where their
unread files hold what they held (`Alike.of_kept`).
-/

namespace CompileCommands

namespace LayeredDatabase

variable {h h' : Host} {ls ls' ls'' ms ms' : List Layer} {l l' : Layer} {n : Nat}
variable {s s' : LayeredDatabase}

/-- All commands, repeats included, are those of all databases. -/
theorem commands_eq_commandsAll (h : Host) (s : LayeredDatabase) :
    s.commands h false = Database.commandsAll h s.layers.flatten := by
  unfold LayeredDatabase.commands
  cases Database.commandsAll h s.layers.flatten <;> rfl

/-- Whether two stacks are the same once everything is read that can
be. -/
def Alike (h : Host) (ls ls' : List Layer) : Prop :=
  ls.map (Database.loadedAll h) = ls'.map (Database.loadedAll h)

theorem Alike.refl (h : Host) (ls : List Layer) : Alike h ls ls := rfl

theorem Alike.symm (ha : Alike h ls ls') : Alike h ls' ls := Eq.symm ha

theorem Alike.trans (ha : Alike h ls ls') (ha' : Alike h ls' ls'') : Alike h ls ls'' :=
  Eq.trans ha ha'

theorem Alike.append (ha : Alike h ls ls') (hb : Alike h ms ms') :
    Alike h (ls ++ ms) (ls' ++ ms') := by
  unfold Alike
  rw [List.map_append, List.map_append, ha, hb]

/-- Layers with the same databases at the end. -/
theorem Alike.snoc (ha : Alike h [l] [l']) (d : Database) : Alike h [l ++ [d]] [l' ++ [d]] := by
  have hl : Database.loadedAll h l = Database.loadedAll h l' := List.singleton_inj.1 ha
  rw [Database.loadedAll_eq_map, Database.loadedAll_eq_map] at hl
  refine List.singleton_inj.2 ?_
  rw [Database.loadedAll_eq_map, Database.loadedAll_eq_map, List.map_append, List.map_append, hl]

theorem Alike.take (ha : Alike h ls ls') (k : Nat) : Alike h (ls.take k) (ls'.take k) := by
  unfold Alike
  rw [List.map_take, List.map_take, ha]

/-! ## The shape of a stack -/

theorem Alike.length_eq (ha : Alike h ls ls') : ls.length = ls'.length := by
  have hlength := congrArg List.length ha
  rwa [List.length_map, List.length_map] at hlength

theorem length_loadedAll (h : Host) (l : Layer) : (Database.loadedAll h l).length = l.length := by
  rw [Database.loadedAll_eq_map, List.length_map]

/-- Alike stacks have layers of the same lengths. -/
theorem Alike.forall_length (ha : Alike h ls ls') (hls : ∀ l ∈ ls, l.length = n) :
    ∀ l ∈ ls', l.length = n := by
  intro l hl
  have hmem : Database.loadedAll h l ∈ ls.map (Database.loadedAll h) :=
    ha ▸ List.mem_map.2 ⟨l, hl, rfl⟩
  obtain ⟨m, hm, heq⟩ := List.mem_map.1 hmem
  rw [← length_loadedAll h l, ← heq, length_loadedAll, hls m hm]

/-! ## Questions -/

theorem loadedAll_flatten (h : Host) (ls : List Layer) :
    Database.loadedAll h ls.flatten = (ls.map (Database.loadedAll h)).flatten := by
  rw [Database.loadedAll_eq_map, List.map_flatten]
  exact congrArg List.flatten (List.map_congr_left fun l _ => (Database.loadedAll_eq_map h l).symm)

theorem Alike.flatten (ha : Alike h ls ls') :
    Database.loadedAll h ls.flatten = Database.loadedAll h ls'.flatten := by
  rw [loadedAll_flatten, loadedAll_flatten, ha]

/-- What every database of a stack holds is what it holds once all is
read. -/
theorem contents_map_loadedAll (h : Host) (ls : List Layer) :
    contents h (ls.map (Database.loadedAll h)) = contents h ls := by
  unfold contents
  rw [List.map_map]
  refine List.map_congr_left fun l _ => ?_
  rw [Function.comp_apply, Database.loadedAll_eq_map, List.map_map]
  exact List.map_congr_left fun d _ => Database.commands_loaded h d

theorem contents_append (h : Host) (ls ms : List Layer) :
    contents h (ls ++ ms) = contents h ls ++ contents h ms := List.map_append

theorem Alike.contents (ha : Alike h ls ls') : contents h ls = contents h ls' := by
  rw [← contents_map_loadedAll, ha, contents_map_loadedAll]

theorem findIn_map_loadedAll (h : Host) (p : Path) (ls : List Layer) :
    findIn h p (ls.map (Database.loadedAll h)) = findIn h p ls := by
  induction ls with
  | nil => rfl
  | cons l ls ih => rw [List.map_cons, findIn, findIn, Database.findAll_loadedAll, ih]

/-- **Alike stacks find the same commands for a file.** -/
theorem Alike.find (ha : Alike h s.layers s'.layers) (unique : Bool) (p : Path) :
    s.find h unique p = s'.find h unique p := by
  rw [LayeredDatabase.find, LayeredDatabase.find, ← findIn_map_loadedAll, ha,
    findIn_map_loadedAll]

/-- **They list the same commands.** -/
theorem Alike.commands (ha : Alike h s.layers s'.layers) (unique : Bool) :
    s.commands h unique = s'.commands h unique := by
  rw [LayeredDatabase.commands, LayeredDatabase.commands, ← Database.commandsAll_loadedAll,
    ha.flatten, Database.commandsAll_loadedAll]

/-- Whether the databases are a single one that repeats no file. -/
def repeatsNone : List Database → Bool
  | [d] => d.isUnique
  | _ => false

theorem repeatsNone_loadedAll (h : Host) (ds : List Database) :
    repeatsNone (Database.loadedAll h ds) = repeatsNone ds := by
  match ds with
  | [] => rfl
  | [d] => exact Database.isUnique_loaded h d
  | _ :: _ :: _ => rfl

theorem files_eq (h : Host) (s : LayeredDatabase) (unique : Bool) :
    s.files h unique = ((Database.commandsAll h s.layers.flatten).map
      (List.map CompileCommand.normalizedFile)).map fun fs =>
        if unique && !repeatsNone s.layers.flatten then firstOfEach id [] fs else fs := by
  rw [← Database.filesAll_eq_map_commandsAll]
  rfl

/-- **And the same files.** -/
theorem Alike.files (ha : Alike h s.layers s'.layers) (unique : Bool) :
    s.files h unique = s'.files h unique := by
  rw [files_eq, files_eq, ← repeatsNone_loadedAll h s.layers.flatten,
    ← Database.commandsAll_loadedAll h s.layers.flatten, ha.flatten, repeatsNone_loadedAll,
    Database.commandsAll_loadedAll]

/-! ## Reading -/

theorem map_mapIdx_of_forall {α β : Type} {g : α → β} {f : Nat → α → α}
    (hf : ∀ i a, g (f i a) = g a) (as : List α) : (as.mapIdx f).map g = as.map g := by
  induction as generalizing f with
  | nil => rfl
  | cons a as ih => rw [List.mapIdx_cons, List.map_cons, List.map_cons, hf, ih fun i a => hf _ a]

/-- **Reading some of the databases** leaves the stack alike. -/
theorem alike_readAt (h : Host) (chosen : Nat → Nat → Bool) (ls : List Layer) :
    Alike h (readAt h chosen ls) ls := by
  refine map_mapIdx_of_forall (fun i l => ?_) ls
  rw [Database.loadedAll_eq_map, Database.loadedAll_eq_map]
  refine map_mapIdx_of_forall (fun j d => ?_) l
  split
  · exact Database.loaded_read h d
  · rfl

theorem alike_readLayers (h : Host) (ls : List Layer) : Alike h (readLayers h ls) ls := by
  unfold Alike
  induction ls with
  | nil => rfl
  | cons l ls ih =>
    have hl := Database.loadedAll_readAll h l
    rw [readLayers]
    cases hread : Database.readAll h l with
    | mk l' done =>
      rw [hread] at hl
      cases done with
      | true => rw [List.map_cons, List.map_cons, hl, ih]
      | false => rw [List.map_cons, List.map_cons, hl]

theorem alike_readLayersFor (h : Host) (p : Path) (ls : List Layer) :
    Alike h (readLayersFor h p ls) ls := by
  unfold Alike
  induction ls with
  | nil => rfl
  | cons l ls ih =>
    have hl := Database.loadedAll_readAll h l
    rw [readLayersFor]
    split
    · rw [List.map_cons, List.map_cons, hl, ih]
    · rw [List.map_cons, List.map_cons, hl]

/-! ## When files change -/

/-- The files of a stack that have not been read. -/
def unreadIn (ls : List Layer) : List Path := ls.flatMap Database.unreadAll

/-- The files that the databases of a stack are kept in. -/
def sourcesIn (ls : List Layer) : List Path := ls.flatMap Database.sourcesAll

theorem mem_unreadIn {f : Path} : f ∈ unreadIn ls ↔ ∃ l ∈ ls, f ∈ Database.unreadAll l :=
  List.mem_flatMap

theorem unreadIn_subset_sourcesIn (ls : List Layer) : unreadIn ls ⊆ sourcesIn ls := by
  intro f hf
  obtain ⟨l, hl, hf⟩ := mem_unreadIn.1 hf
  exact List.mem_flatMap.2 ⟨l, hl, Database.unreadAll_subset_sourcesAll l hf⟩

theorem sourcesIn_map_loadedAll (h : Host) (ls : List Layer) :
    sourcesIn (ls.map (Database.loadedAll h)) = sourcesIn ls := by
  unfold sourcesIn
  rw [List.flatMap_map]
  congr 1
  funext l
  exact Database.sourcesAll_loadedAll h l

/-- Alike stacks are kept in the same files. -/
theorem Alike.sourcesIn_eq (ha : Alike h ls ls') : sourcesIn ls = sourcesIn ls' := by
  rw [← sourcesIn_map_loadedAll h ls, ha, sourcesIn_map_loadedAll]

theorem unreadIn_readAt_subset (h : Host) (chosen : Nat → Nat → Bool) (ls : List Layer) :
    unreadIn (readAt h chosen ls) ⊆ unreadIn ls := by
  have hread : ∀ (chosen : Nat → Bool) (l : Layer),
      Database.unreadAll (l.mapIdx fun j d => if chosen j then d.read h else d) ⊆
        Database.unreadAll l := by
    intro chosen l
    induction l generalizing chosen with
    | nil => exact List.Subset.refl _
    | cons d l ih =>
      rw [List.mapIdx_cons]
      refine List.append_subset.2 ⟨?_, List.Subset.trans (ih _) (List.subset_append_right _ _)⟩
      refine List.Subset.trans ?_ (List.subset_append_left _ _)
      split
      · exact Database.unread_readThrough_subset h d
      · exact List.Subset.refl _
  unfold readAt
  induction ls generalizing chosen with
  | nil => exact List.Subset.refl _
  | cons l ls ih =>
    rw [List.mapIdx_cons]
    exact List.append_subset.2
      ⟨List.Subset.trans (hread _ l) (List.subset_append_left _ _),
        List.Subset.trans (ih _) (List.subset_append_right _ _)⟩

theorem take_readAt (h : Host) (chosen : Nat → Nat → Bool) (ls : List Layer) (k : Nat) :
    (readAt h chosen ls).take k = readAt h chosen (ls.take k) := by
  unfold readAt
  refine List.ext_getElem? fun i => ?_
  rw [List.getElem?_take, List.getElem?_mapIdx, List.getElem?_mapIdx, List.getElem?_take]
  split <;> rfl

/-- **A stack that can be listed is read by listing it.** -/
theorem unreadIn_readLayers {cs : List CompileCommand}
    (hcs : Database.commandsAll h ls.flatten = .ok cs) : unreadIn (readLayers h ls) = [] := by
  induction ls generalizing cs with
  | nil => rfl
  | cons l ls ih =>
    rw [List.flatten_cons, Database.commandsAll_append, Database.chain_eq_ok] at hcs
    obtain ⟨xs, ys, hxs, hys, -⟩ := hcs
    obtain ⟨hdone, hl⟩ := Database.unreadAll_readAll h l hxs
    rw [readLayers]
    cases hread : Database.readAll h l with
    | mk l' done =>
      rw [hread] at hdone hl
      cases done with
      | false => cases hdone
      | true => exact List.append_eq_nil_iff.2 ⟨hl, ih hys⟩

/-- What has been read of a stack does not matter later, as long as the
unread files hold what they held. -/
theorem alike_map_loadedAll (hkept : Database.Kept h h' (unreadIn ls)) :
    Alike h' (ls.map (Database.loadedAll h)) ls := by
  unfold Alike
  rw [List.map_map]
  refine List.map_congr_left fun l hl => ?_
  exact Database.loadedAll_loadedAll l fun f hf => hkept f (mem_unreadIn.2 ⟨l, hl, hf⟩)

/-- **Alike on one host, alike on another**, where the unread files hold
what they held. -/
theorem Alike.of_kept (ha : Alike h ls ls') (hkept : Database.Kept h h' (unreadIn ls))
    (hkept' : Database.Kept h h' (unreadIn ls')) : Alike h' ls ls' := by
  refine (alike_map_loadedAll hkept).symm.trans ?_
  rw [ha]
  exact alike_map_loadedAll hkept'

/-! ## The same stack on another host -/

theorem unreadAll_append (ds es : List Database) :
    Database.unreadAll (ds ++ es) = Database.unreadAll ds ++ Database.unreadAll es := by
  induction ds with
  | nil => rfl
  | cons d ds ih =>
    rw [List.cons_append, Database.unreadAll, Database.unreadAll, ih, List.append_assoc]

theorem unreadAll_flatten (ls : List Layer) : Database.unreadAll ls.flatten = unreadIn ls := by
  induction ls with
  | nil => rfl
  | cons l ls ih =>
    rw [List.flatten_cons, unreadAll_append, ih, unreadIn, unreadIn, List.flatMap_cons]

/-- **A stack holds what it held** if its unread files do. -/
theorem contents_congr (hfiles : ∀ f ∈ unreadIn ls, CommandFile.load h' f = CommandFile.load h f) :
    contents h' ls = contents h ls := by
  refine List.map_congr_left fun l hl => List.map_congr_left fun d hd => ?_
  refine Database.commands_congr d fun f hf => hfiles f (mem_unreadIn.2 ⟨l, hl, ?_⟩)
  exact Database.mem_unreadAll.2 ⟨d, hd, hf⟩

theorem commands_congr (unique : Bool)
    (hfiles : ∀ f ∈ unreadIn s.layers, CommandFile.load h' f = CommandFile.load h f) :
    s.commands h' unique = s.commands h unique := by
  rw [← unreadAll_flatten] at hfiles
  rw [LayeredDatabase.commands, LayeredDatabase.commands, Database.commandsAll_congr _ hfiles]

theorem files_congr (unique : Bool)
    (hfiles : ∀ f ∈ unreadIn s.layers, CommandFile.load h' f = CommandFile.load h f) :
    s.files h' unique = s.files h unique := by
  rw [← unreadAll_flatten] at hfiles
  rw [files_eq, files_eq, Database.commandsAll_congr _ hfiles]

theorem find_congr (unique : Bool) {p : Path} (habs : h'.absolutePath p = h.absolutePath p)
    (hlog : h'.logicalPath p = h.logicalPath p)
    (hfiles : ∀ f ∈ unreadIn s.layers, CommandFile.load h' f = CommandFile.load h f) :
    s.find h' unique p = s.find h unique p := by
  have hfind : ∀ ls : List Layer,
      (∀ f ∈ unreadIn ls, CommandFile.load h' f = CommandFile.load h f) →
        findIn h' p ls = findIn h p ls := by
    intro ls hfiles
    induction ls with
    | nil => rfl
    | cons l ls ih =>
      rw [findIn, findIn,
        Database.findAll_congr habs hlog l fun f hf => hfiles f (List.mem_append_left _ hf),
        ih fun f hf => hfiles f (List.mem_append_right _ hf)]
  rw [LayeredDatabase.find, LayeredDatabase.find, hfind _ hfiles]

/-! ## The same answers -/

/-- Whether a database on one host answers as another does on another
host, layer by layer and as a whole. -/
structure AnswersAs (h : Host) (s : LayeredDatabase) (h' : Host) (s' : LayeredDatabase) :
    Prop where
  contents : contents h' s'.layers = contents h s.layers
  find : ∀ unique p, s'.find h' unique p = s.find h unique p
  files : ∀ unique, s'.files h' unique = s.files h unique
  commands : ∀ unique, s'.commands h' unique = s.commands h unique

theorem Alike.answersAs (ha : Alike h s'.layers s.layers) : AnswersAs h s h s' :=
  ⟨ha.contents, ha.find, ha.files, ha.commands⟩

theorem AnswersAs.trans {h'' : Host} {s'' : LayeredDatabase} (ha : AnswersAs h s h' s')
    (ha' : AnswersAs h' s' h'' s'') : AnswersAs h s h'' s'' where
  contents := ha'.contents.trans ha.contents
  find unique p := (ha'.find unique p).trans (ha.find unique p)
  files unique := (ha'.files unique).trans (ha.files unique)
  commands unique := (ha'.commands unique).trans (ha.commands unique)

/-- A database answers as before on a host where other files have
changed. -/
theorem answersAs_of_apart {written : List Path} (hdir : h.HasWorkingDirectory)
    (hh : Host.AlikeButFiles written h h')
    (hapart : ∀ f ∈ unreadIn s.layers, ∀ p ∈ written, h.Apart f p) : AnswersAs h s h' s := by
  have hfiles : ∀ f ∈ unreadIn s.layers, CommandFile.load h' f = CommandFile.load h f :=
    fun f hf => hh.load (hapart f hf)
  exact ⟨contents_congr hfiles,
    fun unique p => find_congr unique (Host.AlikeBut.absolutePath hh p)
      (Host.AlikeBut.logicalPath hh hdir p) hfiles,
    fun unique => files_congr unique hfiles, fun unique => commands_congr unique hfiles⟩

end LayeredDatabase

end CompileCommands
