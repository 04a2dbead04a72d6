import CompileCommands.Config.Basic
import CompileCommands.Proofs.Config.Overrides
import CompileCommands.Proofs.Host.Spots
import CompileCommands.Proofs.Text.Utf8
import CompileCommands.Proofs.Traversal
/-!
# Precedence by whole variable

Applying the sources of a configuration one after the other gives each
variable what a search from the most important source down finds
(`Config.get_ofSources`). The most important source that sets a variable
decides it alone: the last argument for it, or else the project's file,
or else the user's (`Config.Decides`). What less important sources give
to it, and what any source gives to the other variable, has no influence
(`Config.decided_by_highest`).
-/

namespace CompileCommands

variable {h : Host} {v : Variable}

/-- The items of a variable as they are seen from the directory of the
source that gives them. -/
def Variable.seenFrom (base : Path) : Variable → List String → List String
  | .buildDirectories, items => items.map (ConfigSource.resolve base)
  | .complementers, items => items

namespace ConfigSource

theorem value?_eq (s : ConfigSource) (v : Variable) :
    s.value? v = (s.settings.get? v).map (v.seenFrom s.directory) := by
  cases v <;> rfl

/-- The source that a file with the given settings is. -/
def fromFile (h : Host) (file : Path) (s : Settings) : ConfigSource :=
  ⟨s, (h.absolutePath file).parent?.getD .empty, some (h.absolutePath file)⟩

theorem ofFile_eq_ok {file : Path} {source : ConfigSource} : ofFile h file = .ok source ↔
    ∃ s, Settings.load h (h.absolutePath file) = .ok s ∧ source = fromFile h file s := by
  unfold ofFile
  simp only
  cases hload : Settings.load h (h.absolutePath file) with
  | error e => simp [Except.map]
  | ok s => simp [Except.map, fromFile, eq_comm]

end ConfigSource

namespace Config

variable {os : List Override} {directory : Path} {c : Config} {ss : List ConfigSource}

/-! ## A search from the top -/

theorem ofSources_concat (ss : List ConfigSource) (s : ConfigSource) :
    ofSources (ss ++ [s]) = (ofSources ss).apply s :=
  List.foldl_concat ..

/-- **The last source that sets a variable decides it.** -/
theorem get_ofSources (ss : List ConfigSource) (v : Variable) :
    (ofSources ss).get v = (ss.reverse.findSome? fun s => s.value? v).getD [] := by
  induction ss using List.reverseRecOn with
  | nil => cases v <;> rfl
  | append_singleton ss s ih =>
    rw [ofSources_concat, get_apply, ih, List.reverse_append, List.reverse_singleton,
      List.singleton_append, List.findSome?_cons]
    cases s.value? v <;> rfl

theorem files_ofSources (ss : List ConfigSource) :
    (ofSources ss).files = ss.filterMap ConfigSource.file := by
  induction ss using List.reverseRecOn with
  | nil => rfl
  | append_singleton ss s ih =>
    rw [ofSources_concat, List.filterMap_append, ← ih]
    cases hfile : s.file <;> simp [apply, hfile]

/-! ## The sources of a run -/

/-- The user's configuration file, if there is one. -/
def userFile? (h : Host) : Option Path := h.userConfig?.filter h.isFile

/-- Whether a source is the file that is there, or none where there is
none. -/
inductive IsRead (h : Host) : Option Path → Option ConfigSource → Prop
  | absent : IsRead h none none
  | present {file : Path} {s : Settings} : Settings.load h (h.absolutePath file) = .ok s →
      IsRead h (some file) (some (.fromFile h file s))

theorem mapM_ofFile_eq_ok {file? : Option Path} {read : List ConfigSource} :
    file?.toList.mapM (ConfigSource.ofFile h) = .ok read ↔
      ∃ source?, IsRead h file? source? ∧ read = source?.toList := by
  rw [mapM_eq_ok]
  constructor
  · intro hread
    cases file? with
    | none =>
      obtain rfl := List.map_eq_nil_iff.1 hread.symm
      exact ⟨none, .absent, rfl⟩
    | some file =>
      obtain ⟨source, rest, rfl, hsource, hrest⟩ := List.map_eq_cons_iff.1 hread.symm
      obtain rfl := List.map_eq_nil_iff.1 hrest
      obtain ⟨s, hload, rfl⟩ := ConfigSource.ofFile_eq_ok.1 hsource.symm
      exact ⟨_, .present hload, rfl⟩
  · rintro ⟨source?, hread, rfl⟩
    cases hread with
    | absent => rfl
    | present hload => exact congrArg (· :: []) (ConfigSource.ofFile_eq_ok.2 ⟨_, hload, rfl⟩)

theorem exists_isRead {file? : Option Path}
    (hfile : ∀ f, file? = some f → ∃ s, Settings.load h (h.absolutePath f) = .ok s) :
    ∃ source?, IsRead h file? source? := by
  cases file? with
  | none => exact ⟨none, .absent⟩
  | some f =>
    obtain ⟨s, hload⟩ := hfile f rfl
    exact ⟨_, .present hload⟩

theorem IsRead.filterMap_file {file? : Option Path} {source? : Option ConfigSource}
    (hread : IsRead h file? source?) :
    source?.toList.filterMap ConfigSource.file = file?.toList.map h.absolutePath := by
  cases hread <;> rfl

/-- The sources of a run, one after the other. -/
theorem sources_eq_ok : sources h os directory = .ok ss ↔
    ∃ user project, IsRead h (userFile? h) user ∧ IsRead h (h.localConfig? directory) project ∧
      ss = user.toList ++ project.toList ++
        if os.isEmpty then [] else [ConfigSource.ofOverrides os directory] := by
  unfold sources
  constructor
  · intro hss
    cases huser : (h.userConfig?.filter h.isFile).toList.mapM (ConfigSource.ofFile h) with
    | error e => rw [huser] at hss; cases hss
    | ok us =>
      cases hproject : (h.localConfig? directory).toList.mapM (ConfigSource.ofFile h) with
      | error e => rw [huser, hproject] at hss; cases hss
      | ok ps =>
        rw [huser, hproject] at hss
        cases hss
        obtain ⟨user, hu, rfl⟩ := mapM_ofFile_eq_ok.1 huser
        obtain ⟨project, hp, rfl⟩ := mapM_ofFile_eq_ok.1 hproject
        exact ⟨user, project, hu, hp, rfl⟩
  · rintro ⟨user, project, hu, hp, rfl⟩
    rw [show (h.userConfig?.filter h.isFile).toList.mapM (ConfigSource.ofFile h) = _ from
      mapM_ofFile_eq_ok.2 ⟨user, hu, rfl⟩, mapM_ofFile_eq_ok.2 ⟨project, hp, rfl⟩]
    rfl

theorem load_eq_ok : (load h os directory).value = .ok c ↔
    ∃ ss, sources h os directory = .ok ss ∧ c = ofSources ss := by
  unfold load
  cases sources h os directory with
  | error e => simp
  | ok ss => simp [eq_comm]

/-- **A variable is looked up from the top**: in the overrides, in the
project's file, and in the user's. -/
theorem get_of_sources {user project : Option ConfigSource} (v : Variable)
    (hss : ss = user.toList ++ project.toList ++
      if os.isEmpty then [] else [ConfigSource.ofOverrides os directory]) :
    (ofSources ss).get v =
      ((((Settings.ofOverrides os).get? v).map (v.seenFrom directory)).or
        ((project.bind fun s => s.value? v).or (user.bind fun s => s.value? v))).getD [] := by
  have hline : ((if os.isEmpty then [] else [ConfigSource.ofOverrides os directory]).reverse
      |>.findSome? fun s => s.value? v) =
        ((Settings.ofOverrides os).get? v).map (v.seenFrom directory) := by
    cases os with
    | nil => cases v <;> rfl
    | cons o os => exact (List.findSome?_singleton ..).trans (ConfigSource.value?_eq ..)
  have hfile : ∀ source? : Option ConfigSource,
      (source?.toList.reverse.findSome? fun s => s.value? v) =
        source?.bind fun s => s.value? v := by
    intro source?
    cases source? with
    | none => rfl
    | some s => exact List.findSome?_singleton ..
  rw [get_ofSources, hss, List.reverse_append, List.reverse_append, List.findSome?_append,
    List.findSome?_append, hline, hfile, hfile]

/-! ## The highest source that sets a variable -/

/-- Whether no argument sets the variable. -/
def Unset (arguments : List String) (v : Variable) : Prop :=
  ∀ a ∈ arguments, ∀ value, ¬ Override.Sets a v value

/-- Whether the most important source that sets a variable sets it to the
items, and is based at the directory. -/
inductive Decides (h : Host) (arguments : List String) (directory : Path) (v : Variable) :
    Path → List String → Prop
  /-- The last argument that sets it, at the directory of the run. -/
  | argument {before after : List String} {a value : String} {items : List String} :
      arguments = before ++ a :: after → Override.Sets a v value → Unset after v →
      Override.IsList value items → Decides h arguments directory v directory items
  /-- The project's file, if no argument sets it, at the file's
  directory. -/
  | project {file : Path} {s : Settings} {items : List String} :
      Unset arguments v → h.localConfig? directory = some file →
      Settings.load h (h.absolutePath file) = .ok s → s.get? v = some items →
      Decides h arguments directory v ((h.absolutePath file).parent?.getD .empty) items
  /-- The user's file, if neither an argument nor the project's file sets
  it, at the file's directory. -/
  | user {file : Path} {s : Settings} {items : List String} :
      Unset arguments v →
      (∀ f t, h.localConfig? directory = some f →
        Settings.load h (h.absolutePath f) = .ok t → t.get? v = none) →
      userFile? h = some file →
      Settings.load h (h.absolutePath file) = .ok s → s.get? v = some items →
      Decides h arguments directory v ((h.absolutePath file).parent?.getD .empty) items

section Arguments

variable {arguments before after : List String} {a value : String} {items : List String}

/-- Overrides come from arguments that set their variables. -/
theorem exists_argument (hargs : arguments.map Override.ofText = os.map .ok) {o : Override}
    (ho : o ∈ os) : ∃ a ∈ arguments, Override.Sets a o.target o.value := by
  have hmem : Except.ok o ∈ arguments.map Override.ofText := hargs ▸ List.mem_map_of_mem ho
  obtain ⟨a, ha, hao⟩ := List.mem_map.1 hmem
  exact ⟨a, ha, Override.ofText_eq_ok.1 hao⟩

theorem unset_iff (hargs : arguments.map Override.ofText = os.map .ok) :
    Unset arguments v ↔ ∀ o ∈ os, o.target ≠ v := by
  constructor
  · rintro hunset o ho rfl
    obtain ⟨a, ha, hsets⟩ := exists_argument hargs ho
    exact hunset a ha o.value hsets
  · intro hne a ha value hsets
    have hmem : Override.ofText a ∈ os.map .ok := hargs ▸ List.mem_map_of_mem ha
    obtain ⟨o, ho, hao⟩ := List.mem_map.1 hmem
    obtain rfl : o = ⟨v, value⟩ :=
      Except.ok.inj (hao.trans (Override.ofText_eq_ok (o := ⟨v, value⟩) |>.2 hsets))
    exact hne _ ho rfl

/-- **The last argument for a variable** sets it. -/
theorem get?_ofOverrides_of_split
    (hargs : (before ++ a :: after).map Override.ofText = os.map .ok)
    (hsets : Override.Sets a v value) (hlast : Unset after v)
    (hitems : Override.IsList value items) :
    (Settings.ofOverrides os).get? v = some items := by
  obtain ⟨front, rest, rfl, -, hrest⟩ := List.map_eq_append_iff.1
    (hargs.symm.trans (List.map_append ..))
  obtain ⟨o, back, rfl, ho, hback⟩ := List.map_eq_cons_iff.1 hrest
  -- the argument stands for one override only
  obtain rfl : o = ⟨v, value⟩ :=
    Except.ok.inj (ho.trans (Override.ofText_eq_ok (o := ⟨v, value⟩) |>.2 hsets))
  rw [Override.isList_iff.1 hitems]
  exact Settings.get?_ofOverrides_of_last rfl ((unset_iff hback.symm).1 hlast)

/-- Either some argument is the last one for a variable, or there is
none. -/
theorem unset_or_exists_last (arguments : List String) (v : Variable) :
    Unset arguments v ∨ ∃ before a after value, arguments = before ++ a :: after ∧
      Override.Sets a v value ∧ Unset after v := by
  induction arguments with
  | nil => exact .inl fun a ha => absurd ha List.not_mem_nil
  | cons b arguments ih =>
    rcases ih with hunset | ⟨before, a, after, value, rfl, hsets, hlast⟩
    · by_cases hb : ∃ value, Override.Sets b v value
      · obtain ⟨value, hsets⟩ := hb
        exact .inr ⟨[], b, arguments, value, rfl, hsets, hunset⟩
      · exact .inl (List.forall_mem_cons.2 ⟨fun value hsets => hb ⟨value, hsets⟩, hunset⟩)
    · exact .inr ⟨b :: before, a, after, value, rfl, hsets, hlast⟩

end Arguments

variable {arguments : List String} {base : Path} {items : List String}
variable {user project : Option ConfigSource}

theorem value?_fromFile (h : Host) (file : Path) (s : Settings) (v : Variable) :
    (ConfigSource.fromFile h file s).value? v =
      (s.get? v).map (v.seenFrom ((h.absolutePath file).parent?.getD .empty)) :=
  ConfigSource.value?_eq ..

/-- A file that does not set a variable gives no value to it. -/
theorem value?_of_isRead {file? : Option Path} {source? : Option ConfigSource}
    (hread : IsRead h file? source?)
    (hunset : ∀ f t, file? = some f → Settings.load h (h.absolutePath f) = .ok t →
      t.get? v = none) :
    (source?.bind fun s => s.value? v) = none := by
  cases hread with
  | absent => rfl
  | present hload => rw [Option.bind_some, value?_fromFile, hunset _ _ rfl hload]; rfl

/-- **What decides a variable is its value.** -/
theorem get_of_decides (hargs : arguments.map Override.ofText = os.map .ok)
    (huser : IsRead h (userFile? h) user) (hproject : IsRead h (h.localConfig? directory) project)
    (hss : ss = user.toList ++ project.toList ++
      if os.isEmpty then [] else [ConfigSource.ofOverrides os directory])
    (hdecides : Decides h arguments directory v base items) :
    (ofSources ss).get v = v.seenFrom base items := by
  rw [get_of_sources v hss]
  cases hdecides with
  | argument hsplit hsets hlast hitems =>
    rw [get?_ofOverrides_of_split (hsplit ▸ hargs) hsets hlast hitems]
    rfl
  | project hunset hfile hload hset =>
    rw [Settings.get?_ofOverrides_of_forall ((unset_iff hargs).1 hunset)]
    rw [hfile] at hproject
    cases hproject with
    | present hload' =>
      obtain rfl := Except.ok.inj (hload.symm.trans hload')
      rw [Option.bind_some, value?_fromFile, hset]
      rfl
  | user hunset hnone hfile hload hset =>
    rw [Settings.get?_ofOverrides_of_forall ((unset_iff hargs).1 hunset)]
    rw [hfile] at huser
    cases huser with
    | present hload' =>
      obtain rfl := Except.ok.inj (hload.symm.trans hload')
      rw [value?_of_isRead hproject hnone, Option.bind_some, value?_fromFile, hset]
      rfl

/-- **A variable that nothing decides is empty.** -/
theorem get_of_undecided (hargs : arguments.map Override.ofText = os.map .ok)
    (huser : IsRead h (userFile? h) user) (hproject : IsRead h (h.localConfig? directory) project)
    (hss : ss = user.toList ++ project.toList ++
      if os.isEmpty then [] else [ConfigSource.ofOverrides os directory])
    (hnone : ∀ base items, ¬ Decides h arguments directory v base items) :
    (ofSources ss).get v = [] := by
  rw [get_of_sources v hss]
  rcases unset_or_exists_last arguments v with
    hunset | ⟨before, a, after, value, hsplit, hsets, hlast⟩
  · rw [Settings.get?_ofOverrides_of_forall ((unset_iff hargs).1 hunset)]
    -- otherwise the project's file would decide
    have hproject' : ∀ f t, h.localConfig? directory = some f →
        Settings.load h (h.absolutePath f) = .ok t → t.get? v = none := by
      intro f t hlocal hload
      cases hset : t.get? v with
      | none => rfl
      | some items => exact absurd (.project hunset hlocal hload hset) (hnone _ _)
    have huser' : ∀ f t, userFile? h = some f →
        Settings.load h (h.absolutePath f) = .ok t → t.get? v = none := by
      intro f t hfile hload
      cases hset : t.get? v with
      | none => rfl
      | some items => exact absurd (.user hunset hproject' hfile hload hset) (hnone _ _)
    rw [value?_of_isRead hproject hproject', value?_of_isRead huser huser']
    rfl
  · exact absurd (.argument hsplit hsets hlast (Override.isList_iff.2 rfl)) (hnone _ _)

/-- The files of a configuration are those that have been read, the user's
before the project's. -/
theorem files_of_sources (huser : IsRead h (userFile? h) user)
    (hproject : IsRead h (h.localConfig? directory) project)
    (hss : ss = user.toList ++ project.toList ++
      if os.isEmpty then [] else [ConfigSource.ofOverrides os directory]) :
    (ofSources ss).files =
      ((userFile? h).toList ++ (h.localConfig? directory).toList).map h.absolutePath := by
  have hline : (if os.isEmpty then [] else [ConfigSource.ofOverrides os directory]).filterMap
      ConfigSource.file = [] := by
    split <;> rfl
  rw [files_ofSources, hss, List.filterMap_append, List.filterMap_append, hline, List.append_nil,
    huser.filterMap_file, hproject.filterMap_file, List.map_append]

/-- **The highest source that sets a variable decides it alone.** If the
arguments, the user's file and the project's file can be read, so can the
configuration. Each variable has the items that the highest source which
sets it gives to it, seen from the directory of that source, and none if no
source sets it. Another run in which the same items decide the variable
from the same directory gives it the same value, whatever else differs. The
files are those that have been read, the least important first. -/
theorem decided_by_highest {arguments : List String}
    (hargs : arguments.mapM Override.ofText = .ok os)
    (huser : ∀ f, userFile? h = some f → ∃ s, Settings.load h (h.absolutePath f) = .ok s)
    (hproject : ∀ f, h.localConfig? directory = some f →
      ∃ s, Settings.load h (h.absolutePath f) = .ok s) :
    ∃ c, (load h os directory).value = .ok c ∧
      (∀ v,
        (∀ base items, Decides h arguments directory v base items →
          c.get v = v.seenFrom base items) ∧
        ((∀ base items, ¬ Decides h arguments directory v base items) → c.get v = []) ∧
        ∀ h' arguments' os' directory' c', arguments'.mapM Override.ofText = .ok os' →
          (load h' os' directory').value = .ok c' →
          (∀ base items, Decides h' arguments' directory' v base items ↔
            Decides h arguments directory v base items) →
          c'.get v = c.get v) ∧
      c.files = ((userFile? h).toList ++ (h.localConfig? directory).toList).map h.absolutePath := by
  obtain ⟨user, hu⟩ := exists_isRead huser
  obtain ⟨project, hp⟩ := exists_isRead hproject
  have hargs' := mapM_eq_ok.1 hargs
  refine ⟨_, load_eq_ok.2 ⟨_, sources_eq_ok.2 ⟨user, project, hu, hp, rfl⟩, rfl⟩,
    fun v => ⟨?decided, ?undecided, ?same⟩, files_of_sources hu hp rfl⟩
  case decided => exact fun _ _ hdecides => get_of_decides hargs' hu hp rfl hdecides
  case undecided => exact fun hnone => get_of_undecided hargs' hu hp rfl hnone
  case same =>
    intro h' arguments' os' directory' c' hargs₂ hload hiff
    obtain ⟨ss, hss, rfl⟩ := load_eq_ok.1 hload
    obtain ⟨user', project', hu', hp', hss⟩ := sources_eq_ok.1 hss
    by_cases hdecided : ∃ base items, Decides h arguments directory v base items
    · obtain ⟨base, items, hdecides⟩ := hdecided
      rw [get_of_decides hargs' hu hp rfl hdecides,
        get_of_decides (mapM_eq_ok.1 hargs₂) hu' hp' hss ((hiff _ _).2 hdecides)]
    · have hnone : ∀ base items, ¬ Decides h arguments directory v base items :=
        fun base items hdecides => hdecided ⟨base, items, hdecides⟩
      rw [get_of_undecided hargs' hu hp rfl hnone,
        get_of_undecided (mapM_eq_ok.1 hargs₂) hu' hp' hss fun base items hdecides =>
          hnone _ _ ((hiff _ _).1 hdecides)]

/-! ## Three sources -/

namespace Sample

/-- The user's file sets both variables, the project's file only the build
directories. -/
def tree : FileTree where
  entries := [(["u"], .directory), (["u", "compdb"], .directory),
    (["u", "compdb", "config.toml"],
      .file "compdb.build_dir=['u']\ncompdb.complementers=['headerdb']\n".toUTF8),
    (["p"], .directory), (["p", ".compdb"], .file "compdb.build_dir=['b']\n".toUTF8)]
  distinct := by simp
  proper := by simp; decide
  closed := by simp

def host : Host := ⟨tree, some ["p"], none, some "/u", none⟩

/-- The build directories are set twice. -/
def settings : List String := ["compdb.build_dir=x", "compdb.build_dir= y ,, ../z "]

def overrides : List Override :=
  [⟨.buildDirectories, "x"⟩, ⟨.buildDirectories, " y ,, ../z "⟩]

theorem read_user : host.read ⟨"/u/compdb/config.toml"⟩ =
    .ok "compdb.build_dir=['u']\ncompdb.complementers=['headerdb']\n".toUTF8 :=
  Host.read_toPath (l := ["u", "compdb", "config.toml"]) (by simp [host, tree])

theorem read_project : host.read ⟨"/p/.compdb"⟩ = .ok "compdb.build_dir=['b']\n".toUTF8 :=
  Host.read_toPath (l := ["p", ".compdb"]) (by simp [host, tree])

theorem load_user : Settings.load host ⟨"/u/compdb/config.toml"⟩ =
    .ok ⟨some ["u"], some ["headerdb"]⟩ := by
  rw [Settings.load, Host.readText, read_user]
  simp only [Text.fromUTF8?_toUTF8]
  decide

theorem load_project : Settings.load host ⟨"/p/.compdb"⟩ = .ok ⟨some ["b"], none⟩ := by
  rw [Settings.load, Host.readText, read_project]
  simp only [Text.fromUTF8?_toUTF8]
  decide

theorem userFile?_host : userFile? host = some ⟨"/u/compdb/config.toml"⟩ := by
  rw [userFile?, show host.userConfig? = some ⟨"/u/compdb/config.toml"⟩ by decide]
  exact if_pos (Host.isFile_of_read read_user)

/-- A project's file is found from its directory. -/
theorem localConfig?_of_read {content : ByteArray}
    (hread : h.read ⟨"/p/.compdb"⟩ = .ok content) :
    h.localConfig? ⟨"/p"⟩ = some ⟨"/p/.compdb"⟩ := by
  have hancestors : (h.absolutePath ⟨"/p"⟩).ancestors = [⟨"/p"⟩, ⟨"/"⟩] := by
    rw [Host.absolutePath, if_pos (by decide)]
    decide
  have hfile : (⟨"/p"⟩ : Path).join ⟨Host.localConfigName⟩ = ⟨"/p/.compdb"⟩ := by decide
  have hthere : h.pathExists ((⟨"/p"⟩ : Path).join ⟨Host.localConfigName⟩) = true :=
    hfile ▸ Host.pathExists_of_read hread
  have hfound : h.enclosing? Host.localConfigName ⟨"/p"⟩ = some ⟨"/p"⟩ := by
    rw [Host.enclosing?, hancestors]
    exact List.find?_cons_of_pos hthere
  rw [Host.localConfig?, hfound]
  exact congrArg some hfile

theorem localConfig?_host : host.localConfig? ⟨"/p"⟩ = some ⟨"/p/.compdb"⟩ :=
  localConfig?_of_read read_project

theorem mapM_settings : settings.mapM Override.ofText = .ok overrides :=
  mapM_eq_ok.2 (by decide)

end Sample

/-- The last argument replaces the one before it and both files, and leaves
to the user's file what only that one sets. -/
theorem decided_by_highest_of_sample :
    Decides Sample.host Sample.settings ⟨"/p"⟩ .buildDirectories ⟨"/p"⟩ ["y", "../z"] ∧
    Decides Sample.host Sample.settings ⟨"/p"⟩ .complementers ⟨"/u/compdb"⟩ ["headerdb"] ∧
    ∃ c, (load Sample.host Sample.overrides ⟨"/p"⟩).value = .ok c ∧
      c.buildDirectories = ["/p/y", "/z"] ∧ c.complementers = ["headerdb"] ∧
      c.files = [⟨"/u/compdb/config.toml"⟩, ⟨"/p/.compdb"⟩] := by
  have hbuild : Decides Sample.host Sample.settings ⟨"/p"⟩ .buildDirectories ⟨"/p"⟩
      ["y", "../z"] := by
    have hsplit : Sample.settings =
        ["compdb.build_dir=x"] ++ "compdb.build_dir= y ,, ../z " :: [] := rfl
    have hsets : Override.Sets "compdb.build_dir= y ,, ../z " .buildDirectories
        " y ,, ../z " := .inl (by decide)
    exact .argument hsplit hsets (fun a ha => absurd ha List.not_mem_nil)
      (Override.isList_iff.2 (by decide))
  have hcomplementers : Decides Sample.host Sample.settings ⟨"/p"⟩ .complementers
      ⟨"/u/compdb"⟩ ["headerdb"] := by
    refine .user ((unset_iff (mapM_eq_ok.1 Sample.mapM_settings)).2 (by decide)) ?_
      Sample.userFile?_host Sample.load_user rfl
    intro f t hfile hload
    obtain rfl := Option.some.inj (Sample.localConfig?_host.symm.trans hfile)
    obtain rfl := Except.ok.inj (Sample.load_project.symm.trans hload)
    rfl
  have huser : ∀ f, userFile? Sample.host = some f →
      ∃ s, Settings.load Sample.host (Sample.host.absolutePath f) = .ok s := by
    intro f hfile
    obtain rfl := Option.some.inj (Sample.userFile?_host.symm.trans hfile)
    exact ⟨_, Sample.load_user⟩
  have hproject : ∀ f, Sample.host.localConfig? ⟨"/p"⟩ = some f →
      ∃ s, Settings.load Sample.host (Sample.host.absolutePath f) = .ok s := by
    intro f hfile
    obtain rfl := Option.some.inj (Sample.localConfig?_host.symm.trans hfile)
    exact ⟨_, Sample.load_project⟩
  obtain ⟨c, hload, hget, hfiles⟩ := decided_by_highest Sample.mapM_settings huser hproject
  refine ⟨hbuild, hcomplementers, c, hload, ?_, ?_, ?_⟩
  · exact ((hget .buildDirectories).1 _ _ hbuild).trans (by decide)
  · exact (hget .complementers).1 _ _ hcomplementers
  · rw [hfiles, Sample.userFile?_host, Sample.localConfig?_host]
    rfl

end Config

end CompileCommands
