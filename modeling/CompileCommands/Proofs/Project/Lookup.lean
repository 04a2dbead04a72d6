import CompileCommands.Project.Lookup
import CompileCommands.Proofs.Headers.Index
import CompileCommands.Proofs.Layers.Stored
import CompileCommands.Proofs.Project.Opening
/-!
# Looking files up one by one or together

Looking up several files gives what looking up each of them alone gives,
one after the other (`lookup_eq_mapM`): the index that is built for one
file and used for the next is the one that the next would have built. In
a project that a configuration leads to, what is found for a file are
commands for its logical path, whether they are its own or borrowed
(`lookup_each`), and no file is missing that the index has reached
(`Opened.found_of_reached`).
-/

namespace CompileCommands

/-- Several lookups, one after the other. -/
def Lookup.concat (each : List Lookup) : Lookup :=
  ⟨each.flatMap Lookup.commands, each.flatMap Lookup.missing⟩

theorem Lookup.concat_cons (a : Lookup) (each : List Lookup) :
    concat (a :: each) = a.append (concat each) := by
  unfold concat append
  rw [List.flatMap_cons, List.flatMap_cons]

theorem Lookup.concat_singleton (a : Lookup) : concat [a] = a := by
  unfold concat
  rw [List.flatMap_singleton, List.flatMap_singleton]

namespace Project

open LayeredDatabase

variable {h : Host} {project : Project} {unique : Bool} {built : Option HeaderIndex}
variable {p : Path} {files : List Path} {cs : List CompileCommand} {s : LayeredDatabase}

/-! ## One file after the other -/

/-- The commands for a file: its own, or else what the index has for
it. -/
def answer (h : Host) (project : Project) (unique : Bool) (p : Path) :
    Except DbError (List CompileCommand) :=
  match project.find h unique p with
  | .error e => .error e
  | .ok (c :: cs) => .ok (c :: cs)
  | .ok [] => (project.index h).value.bind fun x => x.find h (project.answers h) p

/-- Whether an index that has been built is the one of the project. -/
def IsIndex (h : Host) (project : Project) (built : Option HeaderIndex) : Prop :=
  ∀ x, built = some x → (project.index h).value = .ok x

theorem isIndex_none : IsIndex h project none := nofun

/-- What is done for one file, whether the index is there or has to be
built. -/
theorem value_findOrBorrow (hbuilt : IsIndex h project built) :
    (project.findOrBorrow h unique built p).value =
      match project.find h unique p with
      | .error e => .error e
      | .ok (c :: cs) => .ok (c :: cs, built)
      | .ok [] => (project.index h).value.bind fun x =>
          (x.find h (project.answers h) p).map fun cs => (cs, some x) := by
  unfold findOrBorrow
  cases project.find h unique p with
  | error e => rfl
  | ok cs =>
    cases cs with
    | cons c cs => rfl
    | nil =>
      cases built with
      | some x =>
        rw [hbuilt x rfl]
        rfl
      | none =>
        simp only [Noted.onOk, Noted.value_andThen]
        cases (project.index h).value <;> rfl

/-- **One more file** has the answer that it has alone, and the index after
it is still that of the project. -/
theorem findOrBorrow_cases (unique : Bool) (p : Path) (hbuilt : IsIndex h project built) :
    (∃ e, project.answer h unique p = .error e ∧
      (project.findOrBorrow h unique built p).value = .error e) ∨
    ∃ cs built', project.answer h unique p = .ok cs ∧
      (project.findOrBorrow h unique built p).value = .ok (cs, built') ∧
      IsIndex h project built' := by
  rw [value_findOrBorrow hbuilt, answer]
  cases project.find h unique p with
  | error e => exact .inl ⟨e, rfl, rfl⟩
  | ok cs =>
    cases cs with
    | cons c cs => exact .inr ⟨c :: cs, built, rfl, rfl, hbuilt⟩
    | nil =>
      cases hindex : (project.index h).value with
      | error e => exact .inl ⟨e, rfl, rfl⟩
      | ok x =>
        simp only [Except.bind]
        cases x.find h (project.answers h) p with
        | error e => exact .inl ⟨e, rfl, rfl⟩
        | ok cs =>
          refine .inr ⟨cs, some x, rfl, rfl, fun y hy => ?_⟩
          cases hy
          exact hindex

/-- **A lookup gives the answers for its files**, whatever index it starts
with. -/
theorem lookupFrom_eq_mapM (hbuilt : IsIndex h project built) :
    (project.lookupFrom h unique built files).value =
      (files.mapM fun p => (project.answer h unique p).map (Lookup.ofFile p)).map
        Lookup.concat := by
  induction files generalizing built with
  | nil => rfl
  | cons p files ih =>
    rw [lookupFrom, List.mapM_cons]
    rcases findOrBorrow_cases unique p hbuilt with
      ⟨e, hanswer, hfound⟩ | ⟨cs, built', hanswer, hfound, hbuilt'⟩
    · rw [Noted.onOk, Noted.value_andThen, hfound, hanswer]
      rfl
    · rw [Noted.onOk, Noted.value_andThen, hfound, hanswer]
      simp only [Noted.onOk, Noted.value_andThen, ih hbuilt']
      cases (files.mapM fun p => (project.answer h unique p).map (Lookup.ofFile p)) with
      | error e => rfl
      | ok each => exact congrArg Except.ok (Lookup.concat_cons ..).symm

theorem lookup_singleton : (project.lookup h unique [p]).value =
    (project.answer h unique p).map (Lookup.ofFile p) := by
  rw [lookup, lookupFrom_eq_mapM isIndex_none, List.mapM_cons]
  cases project.answer h unique p with
  | error e => rfl
  | ok cs => exact congrArg Except.ok (Lookup.concat_singleton _)

/-- **Files can be looked up one by one.** -/
theorem lookup_eq_mapM : (project.lookup h unique files).value =
    (files.mapM fun p => (project.lookup h unique [p]).value).map Lookup.concat := by
  simp only [lookup_singleton]
  exact lookupFrom_eq_mapM isIndex_none

/-- A lookup fails exactly if it does for one of the files alone. -/
theorem lookup_eq_error_iff : (∃ e, (project.lookup h unique files).value = .error e) ↔
    ∃ f ∈ files, ∃ e, (project.lookup h unique [f]).value = .error e := by
  rw [lookup_eq_mapM, ← exists_mapM_eq_error]
  cases (files.mapM fun p => (project.lookup h unique [p]).value) with
  | error e => exact ⟨fun _ => ⟨e, rfl⟩, fun _ => ⟨e, rfl⟩⟩
  | ok each => exact ⟨nofun, nofun⟩

/-! ## What is found for a file -/

/-- The projects that a configuration leads to: as they are opened, and
after calls on their database. -/
inductive Opened : Project → Prop
  | config {h : Host} {config : Config} {strict : Bool} {project : Project}
      (hopen : (ofConfig h config strict).value = .ok project) : Opened project
  | call {s : LayeredDatabase} (h : Host) (c : Call) :
      Opened (.layered s) → Opened (.layered (c.run h s))

/-- **The database of a project finds all it holds in files**, and so looks
files up under their logical paths. Commands that are held in memory would
be looked up from the working directory, whichever links lead there. -/
theorem Opened.isStored (ho : Opened project) : ∀ s, project = .layered s → IsStored s := by
  induction ho with
  | @config h config strict project hopen =>
    rintro s rfl
    refine ofConfig_induction (P := IsStored) ?_ ?_ ?_ hopen
    · exact ⟨rfl, List.forall_mem_singleton.2 fun d hd => absurd hd List.not_mem_nil⟩
    · exact fun s s' name hs hadd => run_addComplementer_of_ok (h := h) hadd ▸ hs.run h _
    · exact fun s s' hs hpatterns => run_addPatterns_of_ok hpatterns ▸ hs.run h _
  | call h c _ ih =>
    intro s hs
    cases hs
    exact (ih _ rfl).run h c

theorem Opened.normalizedFile_of_find (ho : Opened project)
    (hcs : project.find h unique p = .ok cs) : ∀ c ∈ cs, c.normalizedFile = h.logicalPath p := by
  cases project with
  | unconfigured =>
    cases hcs
    exact fun c hc => absurd hc List.not_mem_nil
  | layered s => exact (ho.isStored s rfl).normalizedFile_of_find hcs

theorem find_answers (h : Host) (project : Project) (p : Path) :
    (project.answers h).find p = project.find h false p := by
  cases project <;> rfl

theorem length_le_of_find (hcs : project.find h true p = .ok cs) : cs.length ≤ 1 := by
  cases project with
  | unconfigured =>
    cases hcs
    exact Nat.zero_le _
  | layered s =>
    obtain ⟨found, -, rfl⟩ := find_eq_ok.1 hcs
    exact List.length_take_le _ _

/-- **The commands for a file** are commands for its logical path, and at
most one if they are to be unique. -/
theorem Opened.of_answer (ho : Opened project) (hdir : h.directory ≠ none)
    (hcs : project.answer h unique p = .ok cs) :
    (∀ c ∈ cs, c.normalizedFile = h.logicalPath p) ∧ (unique = true → cs.length ≤ 1) := by
  unfold answer at hcs
  split at hcs
  · cases hcs
  · rename_i c cs hfind
    cases hcs
    refine ⟨ho.normalizedFile_of_find hfind, ?_⟩
    rintro rfl
    exact length_le_of_find hfind
  · -- lenders are found under logical paths, which are absolute
    cases hindex : (project.index h).value with
    | error e => rw [hindex] at hcs; cases hcs
    | ok x =>
      rw [hindex] at hcs
      have hsource : ∀ q found, (project.answers h).find q = .ok found →
          ∀ c ∈ found, c.normalizedFile.isAbsolute = true := fun q found hfound c hc => by
        rw [ho.normalizedFile_of_find (project.find_answers h q ▸ hfound) c hc]
        exact (Host.isCanonical_logicalPath hdir q).1
      obtain ⟨hlength, hfile⟩ :=
        HeaderIndex.answer_of_find (Host.isCanonical_logicalPath hdir p) hsource hcs
      exact ⟨hfile, fun _ => hlength⟩

/-- What a lookup of a single file is to find: commands for its logical
path, at most one if they are to be unique, and the file is missing if
there are none. -/
structure FoundAlone (h : Host) (project : Project) (unique : Bool) (f : Path) (found : Lookup) :
    Prop where
  lookup : (project.lookup h unique [f]).value = .ok found
  file : ∀ c ∈ found.commands, c.normalizedFile = h.logicalPath f
  single : unique = true → found.commands.length ≤ 1
  missing : found.missing = if found.commands = [] then [f] else []

theorem Opened.foundAlone (ho : Opened project) (hdir : h.directory ≠ none) {found : Lookup}
    (hfound : (project.lookup h unique [p]).value = .ok found) :
    FoundAlone h project unique p found := by
  have hanswer := lookup_singleton.symm.trans hfound
  cases hcs : project.answer h unique p with
  | error e => rw [hcs] at hanswer; cases hanswer
  | ok cs =>
    rw [hcs] at hanswer
    cases hanswer
    obtain ⟨hfile, hsingle⟩ := ho.of_answer hdir hcs
    refine ⟨hfound, hfile, hsingle, ?_⟩
    cases cs <;> rfl

/-- **Each file is answered for itself**, whatever other files are looked
up with it. A lookup succeeds if it does for each of the files alone, and
what it finds is then what is found for each of them, in their order. -/
theorem lookup_each (ho : Opened project) (hdir : h.directory ≠ none) (unique : Bool)
    (files : List Path) :
    (∀ found, (project.lookup h unique files).value = .ok found →
      ∃ each, List.Forall₂ (FoundAlone h project unique) files each ∧
        found.commands = each.flatMap Lookup.commands ∧
        found.missing = each.flatMap Lookup.missing) ∧
    ((∃ e, (project.lookup h unique files).value = .error e) ↔
      ∃ f ∈ files, ∃ e, (project.lookup h unique [f]).value = .error e) := by
  refine ⟨fun found hfound => ?_, lookup_eq_error_iff⟩
  rw [lookup_eq_mapM] at hfound
  cases heach : files.mapM fun p => (project.lookup h unique [p]).value with
  | error e => rw [heach] at hfound; cases hfound
  | ok each =>
    rw [heach] at hfound
    cases hfound
    exact ⟨each, (forall₂_of_mapM heach).imp fun f found hf => ho.foundAlone hdir hf, rfl, rfl⟩

/-! ## Lookups that succeed -/

/-- A file that is listed has commands of its own. -/
theorem Opened.exists_find (ho : Opened project) (hcs : project.commands h false = .ok cs)
    (unique : Bool) (p : Path) : ∃ found, project.find h unique p = .ok found ∧
      (h.logicalPath p ∈ cs.map CompileCommand.normalizedFile → found ≠ []) := by
  cases project with
  | unconfigured =>
    cases hcs
    exact ⟨[], rfl, fun hp => absurd hp List.not_mem_nil⟩
  | layered s =>
    have hall : Database.commandsAll h s.layers.flatten = .ok cs :=
      (commands_eq_commandsAll h s).symm.trans hcs
    obtain ⟨found, hfound, -, hne⟩ := exists_findIn (ho.isStored s rfl).layers.findAll hall
    refine ⟨_, find_eq_ok.2 ⟨found, hfound, rfl⟩, fun hp => ?_⟩
    obtain ⟨c, found, rfl⟩ := List.exists_cons_of_ne_nil (hne hp)
    cases unique <;> exact List.cons_ne_nil _ _

theorem answersFor_answers (hcs : project.commands h false = .ok cs) :
    (project.answers h).AnswersFor cs := by
  cases project with
  | unconfigured =>
    cases hcs
    exact Database.answersFor rfl
  | layered s => exact LayeredDatabase.answersFor hcs

theorem commands_answers (h : Host) (project : Project) :
    (project.answers h).commands = project.commands h false := by
  cases project <;> rfl

theorem exists_index (hcs : project.commands h false = .ok cs) :
    ∃ x, (project.index h).value = .ok x :=
  HeaderIndex.exists_build h (answersFor_answers hcs) ((commands_answers h project).trans hcs)

/-- **Files can be looked up in a project that can be listed.** -/
theorem exists_lookup (ho : Opened project) (hcs : project.commands h false = .ok cs)
    (unique : Bool) (files : List Path) :
    ∃ found, (project.lookup h unique files).value = .ok found := by
  obtain ⟨x, hx⟩ := exists_index hcs
  have hanswer : ∀ p, ∃ cs, project.answer h unique p = .ok cs := by
    intro p
    obtain ⟨own, hown, -⟩ := ho.exists_find hcs unique p
    cases own with
    | cons c own => exact ⟨c :: own, by rw [answer, hown]⟩
    | nil =>
      have hsource : ∀ q, ∃ found, (project.answers h).find q = .ok found := fun q => by
        obtain ⟨found, hfound, -⟩ := ho.exists_find hcs false q
        exact ⟨found, (project.find_answers h q).trans hfound⟩
      obtain ⟨borrowed, hborrowed⟩ := HeaderIndex.exists_find h x hsource p
      exact ⟨borrowed, by rw [answer, hown, hx]; exact hborrowed⟩
  cases hfound : (project.lookup h unique files).value with
  | ok found => exact ⟨found, rfl⟩
  | error e =>
    have hfails : ∃ e, (project.lookup h unique files).value = .error e := ⟨e, hfound⟩
    obtain ⟨p, -, e, he⟩ := lookup_eq_error_iff.1 hfails
    obtain ⟨cs, hcs⟩ := hanswer p
    rw [lookup_singleton, hcs] at he
    cases he

/-- **What the index has reached is not missing**: a file that is listed has
commands of its own, and one that listed files lead to borrows one. -/
theorem Opened.found_of_reached (ho : Opened project) (hdir : h.directory ≠ none)
    (hcs : project.commands h false = .ok cs) (habs : ∀ c ∈ cs, c.directory.isAbsolute = true)
    (hreached : h.logicalPath p ∈
      (IncludeGraph.walkAll h (cs.map CompileCommand.normalizedFile) cs).reached)
    (unique : Bool) :
    ∃ found, (project.lookup h unique [p]).value = .ok found ∧ found.missing = [] := by
  suffices hanswer : ∃ c cs, project.answer h unique p = .ok (c :: cs) by
    obtain ⟨c, cs, hanswer⟩ := hanswer
    exact ⟨Lookup.ofFile p (c :: cs), by rw [lookup_singleton, hanswer]; rfl, rfl⟩
  obtain ⟨own, hown, hne⟩ := ho.exists_find hcs unique p
  cases own with
  | cons c own => exact ⟨c, own, by rw [answer, hown]⟩
  | nil =>
    have hnew : h.logicalPath p ∉ cs.map CompileCommand.normalizedFile := fun hp => hne hp rfl
    have hanswers := answersFor_answers hcs
    obtain ⟨x, hx⟩ := exists_index hcs
    obtain ⟨hknown, hgraph⟩ :=
      (HeaderIndex.build_eq_ok hanswers ((commands_answers h project).trans hcs)).1 hx
    rw [← hknown] at hnew hreached
    have hrooted := (HeaderIndex.isSound_walkAll habs hknown).rooted _ hreached
    rw [← hgraph] at hrooted
    have hcanonical := Host.isCanonical_logicalPath hdir p
    obtain ⟨-, c, hc, -⟩ :=
      HeaderIndex.find_of_rooted hanswers habs hknown hcanonical hrooted hnew
    rw [HeaderIndex.find_logicalPath hcanonical] at hc
    exact ⟨c, [], by rw [answer, hown, hx]; exact hc⟩

namespace Sample

/-- The source, by a relative path, and its header. -/
def asked : List Path := [⟨"b/a.c"⟩, ⟨"/b/a.h"⟩]

theorem commands_opened :
    (layered opened).commands host false = .ok [command, command] := by
  have hbase : (Database.json ⟨"/b/compile_commands.json"⟩ none).commands host = .ok [command] :=
    CommandFile.load_of_read read_base
  have hcache : (Database.json (headerdb.cacheFile ⟨"/b"⟩) none).commands host = .ok [] :=
    CommandFile.load_of_read read_cacheFile
  have hlayers : opened.layers.flatten =
      List.replicate 2 (.json ⟨"/b/compile_commands.json"⟩ none) ++
        List.replicate 4 (.json (headerdb.cacheFile ⟨"/b"⟩) none) := rfl
  refine (commands_eq_commandsAll host opened).trans ?_
  rw [hlayers]
  simp only [List.replicate, List.cons_append, List.nil_append, Database.commandsAll, hbase, hcache]
  rfl

theorem includedFiles_command : command.includedFiles host = [⟨"/b/a.h"⟩] := by
  have hread : host.read command.normalizedFile = .ok "#include \"a.h\"".toUTF8 := by
    rw [show command.normalizedFile = (Place.absolute ["b", "a.c"]).toPath by decide]
    exact Host.read_toPath (by simp [host, tree])
  have hline : Include.ofContent "#include \"a.h\"".toUTF8.toList = [⟨.quoted, "a.h"⟩] := by
    rw [Text.toList_toUTF8]
    decide +kernel
  have hplaces : Include.places ⟨.quoted, "a.h"⟩ command.normalizedFile command.searchDirectories =
      [⟨"/b"⟩] := by
    decide
  have hmem : (["b", "a.h"], .file "".toUTF8) ∈ host.tree.entries := by simp [host, tree]
  have hfile : host.isFile ((⟨"/b"⟩ : Path).join ⟨"a.h"⟩) = true := by
    rw [show (⟨"/b"⟩ : Path).join ⟨"a.h"⟩ = (Place.absolute ["b", "a.h"]).toPath by decide]
    exact Host.isFile_of_read (Host.read_toPath hmem)
  rw [CompileCommand.includedFiles_of_isFile hread hline hplaces hfile]
  decide

/-- Neither file is missing: the header is included by the source. -/
theorem found_of_mem_asked : ∀ f ∈ asked,
    ∃ found, ((layered opened).lookup host true [f]).value = .ok found ∧ found.missing = [] := by
  have habs : ∀ c ∈ [command, command], c.directory.isAbsolute = true := by decide
  have hclosed := IncludeGraph.Walk.IsClosed.walkAll (h := host)
    ([command, command].map CompileCommand.normalizedFile) habs
  have hsource := hclosed.mains command (List.mem_cons_self ..)
  obtain ⟨d, hd, -, hsub⟩ := hclosed.closed _ hsource
  obtain rfl : d = command := by simpa using hd
  rw [← CompileCommand.includedFiles_eq, includedFiles_command] at hsub
  intro f hf
  refine (Opened.config ofConfig_eq).found_of_reached (Option.some_ne_none _) commands_opened
    habs ?_ true
  have hf : f = ⟨"b/a.c"⟩ ∨ f = ⟨"/b/a.h"⟩ := by simpa [asked] using hf
  rcases hf with rfl | rfl
  · rw [show host.logicalPath ⟨"b/a.c"⟩ = command.normalizedFile by decide]
    exact hsource
  · rw [show host.logicalPath ⟨"/b/a.h"⟩ = ⟨"/b/a.h"⟩ by decide]
    exact hsub (List.mem_singleton_self _)

end Sample

/-- Looked up together, the source and the header are found one by one. -/
theorem lookup_each_of_doubled :
    Opened (layered Sample.opened) ∧ Sample.host.directory ≠ none ∧
    ∃ found, ((layered Sample.opened).lookup Sample.host true Sample.asked).value = .ok found ∧
      (∃ each,
        List.Forall₂ (FoundAlone Sample.host (layered Sample.opened) true) Sample.asked each ∧
        found.commands = each.flatMap Lookup.commands ∧
        found.missing = each.flatMap Lookup.missing) ∧
      found.missing = [] ∧
      ((∃ e, ((layered Sample.opened).lookup Sample.host true Sample.asked).value = .error e) ↔
        ∃ f ∈ Sample.asked, ∃ e,
          ((layered Sample.opened).lookup Sample.host true [f]).value = .error e) := by
  have ho : Opened (layered Sample.opened) := .config Sample.ofConfig_eq
  have hdir : Sample.host.directory ≠ none := Option.some_ne_none _
  obtain ⟨found, hfound⟩ := exists_lookup ho Sample.commands_opened true Sample.asked
  obtain ⟨hfiles, hfails⟩ := lookup_each ho hdir true Sample.asked
  obtain ⟨each, heach, hcommands, hmissing⟩ := hfiles found hfound
  have hnone : ∀ f ∈ Sample.asked, ∀ r,
      FoundAlone Sample.host (layered Sample.opened) true f r → r.missing = [] := by
    intro f hf r hr
    obtain ⟨alone, halone, hnone⟩ := Sample.found_of_mem_asked f hf
    obtain rfl := Except.ok.inj (hr.lookup.symm.trans halone)
    exact hnone
  refine ⟨ho, hdir, found, hfound, ⟨each, heach, hcommands, hmissing⟩, ?_, hfails⟩
  obtain ⟨r, rs, hr, hrs, rfl⟩ := List.forall₂_cons_left_iff.1 heach
  obtain ⟨r', rs, hr', hnil, rfl⟩ := List.forall₂_cons_left_iff.1 hrs
  obtain rfl := List.forall₂_nil_left_iff.1 hnil
  rw [hmissing, List.flatMap_cons, List.flatMap_cons, hnone _ (by decide) r hr,
    hnone _ (by decide) r' hr']
  rfl

end Project

end CompileCommands
