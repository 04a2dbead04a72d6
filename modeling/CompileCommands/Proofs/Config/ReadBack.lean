import CompileCommands.Proofs.Config.Precedence
import CompileCommands.Proofs.FileTree.Reach
import CompileCommands.Proofs.Host.RelativePath
/-!
# Values that are read back

The value of a variable is shown as a list with commas, and a list with
commas is what an argument sets a variable to. There is no way to write an
item with a comma in it, an empty one, or one with blanks around it, so
what is shown is read back as what it was exactly if there is no such item
(`Config.text_read_back_iff`). A build directory is shown as an absolute
path, and seen from anywhere it stays what it is; no part of it could take
its place either, since no path is spelled shorter than a canonical one.
-/

namespace CompileCommands

variable {α β : Type}

theorem length_le_length_flatMap {f : α → List β} {xs : List α} (hne : ∀ x ∈ xs, f x ≠ []) :
    xs.length ≤ (xs.flatMap f).length := by
  induction xs with
  | nil => exact Nat.zero_le _
  | cons x xs ih =>
    obtain ⟨hx, hxs⟩ := List.forall_mem_cons.1 hne
    have hpos := List.length_pos_iff.2 hx
    have hrest := ih hxs
    rw [List.flatMap_cons, List.length_append, List.length_cons]
    omega

/-- A list that can be got from parts of each of its elements, with no
part left out, is got from one part of each. -/
theorem map_eq_singleton_of_flatMap {f : α → List β} {g : β → α} {xs : List α}
    (hne : ∀ x ∈ xs, f x ≠ []) (hmap : (xs.flatMap f).map g = xs) :
    ∀ x ∈ xs, (f x).map g = [x] := by
  induction xs with
  | nil => exact fun x hx => absurd hx List.not_mem_nil
  | cons x xs ih =>
    obtain ⟨hx, hxs⟩ := List.forall_mem_cons.1 hne
    obtain ⟨b, bs, hb⟩ := List.exists_cons_of_ne_nil hx
    rw [List.flatMap_cons, hb, List.cons_append, List.map_cons, List.map_append] at hmap
    obtain ⟨hfirst, hrest⟩ := List.cons.inj hmap
    -- the others have a part each, so there is no second one of the first
    have hmany : xs.length ≤ (xs.flatMap f).length := length_le_length_flatMap hxs
    have hlength := congrArg List.length hrest
    rw [List.length_append, List.length_map, List.length_map] at hlength
    have hnil : bs = [] := List.eq_nil_of_length_eq_zero (by omega)
    rw [hnil, List.map_nil, List.nil_append] at hrest
    refine List.forall_mem_cons.2 ⟨?_, ih hxs hrest⟩
    rw [hb, hnil, List.map_singleton, hfirst]

namespace Override

variable {item value : String} {items : List String}

/-! ## What a list with commas can hold -/

/-- Whether a text can be an item of a list with commas. -/
structure IsListItem (item : String) : Prop where
  nonempty : item ≠ ""
  plain : ',' ∉ item.toList
  first : ∀ c, item.toList.head? = some c → Text.isBlank c = false
  last : ∀ c, item.toList.getLast? = some c → Text.isBlank c = false

/-- **Such a text is a list of one item.** -/
theorem IsListItem.listItems_eq (hitem : IsListItem item) : listItems item = [item] := by
  have htrim : Text.trim item.toList = item.toList := by
    have htrimmed : Text.IsTrimmed item.toList item.toList :=
      ⟨[], [], by simp, fun c hc => absurd hc List.not_mem_nil,
        fun c hc => absurd hc List.not_mem_nil, hitem.first, hitem.last⟩
    exact htrimmed.eq_trim.symm
  have hne : item.toList.isEmpty = false :=
    List.isEmpty_eq_false_iff.2 fun hnil => hitem.nonempty (String.toList_eq_nil_iff.1 hnil)
  rw [listItems, Text.fields_of_not_mem hitem.plain, List.map_singleton, htrim,
    List.filter_singleton, hne]
  exact congrArg (· :: []) String.ofList_toList

theorem mem_listItems : item ∈ listItems value ↔
    ∃ part ∈ Text.fields (· == ',') value.toList, Text.trim part = item.toList ∧ item ≠ "" := by
  unfold listItems
  simp only [List.mem_map, List.mem_filter]
  constructor
  · rintro ⟨text, ⟨⟨part, hpart, rfl⟩, hne⟩, rfl⟩
    refine ⟨part, hpart, String.toList_ofList.symm, fun hempty => ?_⟩
    rw [← String.toList_eq_nil_iff, String.toList_ofList] at hempty
    rw [hempty] at hne
    cases hne
  · rintro ⟨part, hpart, htrim, hne⟩
    refine ⟨item.toList, ⟨⟨part, hpart, htrim⟩, ?_⟩, String.ofList_toList⟩
    rw [Bool.not_eq_true', List.isEmpty_eq_false_iff]
    exact fun hnil => hne (String.toList_eq_nil_iff.1 hnil)

/-- **The items of a list** can be items. -/
theorem isListItem_of_mem (hitem : item ∈ listItems value) : IsListItem item := by
  obtain ⟨part, hpart, htrim, hne⟩ := mem_listItems.1 hitem
  obtain ⟨l, r, hsplit, -, -, hfirst, hlast⟩ := Text.isTrimmed_trim part
  rw [htrim] at hsplit hfirst hlast
  refine ⟨hne, fun hcomma => Text.not_mem_of_mem_fields hpart ?_, hfirst, hlast⟩
  rw [hsplit]
  exact List.mem_append_left _ (List.mem_append_right _ hcomma)

/-- And they are stretches of it. -/
theorem isInfix_of_mem_listItems (hitem : item ∈ listItems value) :
    item.toList <:+: value.toList := by
  obtain ⟨part, hpart, htrim, -⟩ := mem_listItems.1 hitem
  obtain ⟨l, r, hsplit, -⟩ := Text.isTrimmed_trim part
  rw [htrim] at hsplit
  have hpiece : item.toList <:+: part := ⟨l, r, hsplit.symm⟩
  exact hpiece.trans (Text.isInfix_of_mem_fields hpart)

/-- **Lists that are put together** have the items of each. -/
theorem listItems_intercalate (items : List String) :
    listItems (String.ofList (List.intercalate [','] (items.map String.toList))) =
      items.flatMap listItems := by
  by_cases hnil : items = []
  · rw [hnil]
    rfl
  · have hne : items.map String.toList ≠ [] := fun hmap => hnil (List.map_eq_nil_iff.1 hmap)
    rw [listItems, String.toList_ofList, Text.fields_intercalate_eq_flatMap hne,
      List.flatMap_map, List.map_flatMap, List.filter_flatMap, List.map_flatMap]
    rfl

/-! ## When a list has the items that it was made of -/

theorem flatMap_listItems_eq_iff :
    items.flatMap listItems = items ↔ ∀ item ∈ items, IsListItem item := by
  constructor
  · intro hsame item hitem
    rw [← hsame] at hitem
    obtain ⟨value, -, hvalue⟩ := List.mem_flatMap.1 hitem
    exact isListItem_of_mem hvalue
  · intro hall
    have hsingle : items.flatMap listItems = items.flatMap fun item => [item] :=
      List.flatMap_congr fun item hitem => (hall item hitem).listItems_eq
    rw [hsingle, List.flatMap_singleton']

/-- A list that starts with a separator has a first item that does so. -/
theorem exists_listItems_of_isAbsolute (habs : (⟨value⟩ : Path).isAbsolute = true) :
    ∃ item rest, listItems value = item :: rest ∧ (⟨item⟩ : Path).isAbsolute = true := by
  obtain ⟨cs, hcs⟩ := Path.isAbsolute_iff.1 habs
  have hvalue : value.toList = '/' :: cs := hcs
  obtain ⟨part, parts, hfields⟩ : ∃ part parts,
      Text.fields (· == ',') value.toList = ('/' :: part) :: parts := by
    rw [hvalue, Text.fields, if_neg (by decide)]
    split
    · exact ⟨[], [], rfl⟩
    · exact ⟨_, _, rfl⟩
  obtain ⟨l, r, hsplit, hl, hr, -⟩ := Text.isTrimmed_trim ('/' :: part)
  -- the separator is no blank, so it is what remains first
  obtain ⟨text, htext⟩ : ∃ text, Text.trim ('/' :: part) = '/' :: text := by
    have hslash : Text.isBlank '/' = false := by decide
    cases l with
    | cons a l =>
      rw [List.cons_append, List.cons_append] at hsplit
      have hblank := hl a (List.mem_cons_self ..)
      rw [← (List.cons.inj hsplit).1, hslash] at hblank
      cases hblank
    | nil =>
      cases htrim : Text.trim ('/' :: part) with
      | nil =>
        rw [htrim, List.nil_append, List.nil_append] at hsplit
        have hblank := hr '/' (hsplit ▸ List.mem_cons_self ..)
        rw [hslash] at hblank
        cases hblank
      | cons a text =>
        rw [htrim, List.nil_append, List.cons_append] at hsplit
        exact ⟨text, by rw [(List.cons.inj hsplit).1]⟩
  have hitems : listItems value = String.ofList ('/' :: text) ::
      ((parts.map Text.trim).filter fun item => !item.isEmpty).map String.ofList := by
    rw [listItems, hfields, List.map_cons, htext, List.filter_cons_of_pos rfl, List.map_cons]
  exact ⟨_, _, hitems, Path.isAbsolute_iff.2 ⟨text, String.toList_ofList⟩⟩

end Override

namespace ConfigSource

open Override

variable {base : Path} {item : String} {items : List String}

/-! ## Build directories -/

/-- A canonical path is seen as it is from everywhere. -/
theorem resolve_of_isCanonical (hitem : (⟨item⟩ : Path).IsCanonical) :
    resolve base item = item := by
  rw [resolve, Path.join, if_pos hitem.1, hitem.2]

/-- **Canonical paths are got from a list** only if it is made of them. -/
theorem map_resolve_flatMap_listItems_iff (hitems : ∀ item ∈ items, (⟨item⟩ : Path).IsCanonical) :
    (items.flatMap listItems).map (resolve base) = items ↔
      ∀ item ∈ items, IsListItem item := by
  constructor
  · intro hsame item hitem
    have hne : ∀ item ∈ items, listItems item ≠ [] := by
      intro item hitem
      obtain ⟨first, rest, hfirst, -⟩ := exists_listItems_of_isAbsolute (hitems item hitem).1
      rw [hfirst]
      exact List.cons_ne_nil first rest
    have hone := map_eq_singleton_of_flatMap hne hsame item hitem
    obtain ⟨first, rest, hfirst, habs⟩ := exists_listItems_of_isAbsolute (hitems item hitem).1
    rw [hfirst, List.map_cons] at hone
    have hresolved : (⟨first⟩ : Path).normalize = ⟨item⟩ := by
      have htext := (List.cons.inj hone).1
      rw [resolve, Path.join, if_pos habs] at htext
      exact congrArg Path.mk htext
    -- the item is no longer than the stretch of it that stands for it
    have hmem : first ∈ listItems item := hfirst ▸ List.mem_cons_self ..
    have hinside := isInfix_of_mem_listItems hmem
    have hshort := Path.length_normalize_le habs
    rw [hresolved] at hshort
    have hwhole : first = item :=
      String.toList_inj.1 (hinside.eq_of_length (Nat.le_antisymm hinside.length_le hshort))
    exact hwhole ▸ isListItem_of_mem hmem
  · intro hall
    have hresolved : items.map (resolve base) = items.map id :=
      List.map_congr_left fun item hitem => resolve_of_isCanonical (hitems item hitem)
    rw [flatMap_listItems_eq_iff.2 hall, hresolved, List.map_id]

end ConfigSource

namespace Host

variable {h : Host} {file : Path} {content : ByteArray}

/-- **The directory of a file that is read** is known absolutely. -/
theorem isAbsolute_parent_of_read (hread : h.read (h.absolutePath file) = .ok content) :
    ((h.absolutePath file).parent?.getD .empty).isAbsolute = true := by
  have habs : (h.absolutePath file).isAbsolute = true := by
    by_contra hrel
    obtain ⟨l, hspot⟩ := spot_of_read hread
    obtain ⟨-, -, d, hd, -⟩ := spot_eq_ok_iff.1 hspot
    rw [start?, if_neg hrel] at hd
    -- it would be read from the working directory, which makes it absolute
    refine hrel (isAbsolute_absolutePath.2 (.inr ?_))
    rw [hd]
    exact Option.some_ne_none d
  obtain ⟨ns, hpath, hns⟩ := (isCanonical_absolutePath_of_isAbsolute habs).exists_names
  rw [hpath] at hread ⊢
  obtain ⟨hne, -⟩ := leads_of_read hns hread
  obtain ⟨ms, n, rfl⟩ := (List.eq_nil_or_concat' ns).resolve_left hne
  rw [Path.parent?_toPath_concat hns]
  exact Place.isAbsolute_toPath_absolute ms

end Host

namespace Config

variable {h : Host} {os : List Override} {directory base : Path} {c : Config}
variable {ss : List ConfigSource}

/-- Every source of a run in an absolute directory is based at one. -/
theorem isAbsolute_directory_of_mem_sources (hdirectory : directory.isAbsolute = true)
    (hss : sources h os directory = .ok ss) : ∀ s ∈ ss, s.directory.isAbsolute = true := by
  have hread : ∀ {file? source?}, IsRead h file? source? →
      ∀ s ∈ source?.toList, s.directory.isAbsolute = true := by
    intro file? source? hread s hs
    cases hread with
    | absent => exact absurd hs List.not_mem_nil
    | @present file settings hload =>
      rw [List.mem_singleton.1 hs]
      cases hcontent : h.read (h.absolutePath file) with
      | error e =>
        rw [Settings.load, Host.readText, hcontent] at hload
        cases hload
      | ok content => exact Host.isAbsolute_parent_of_read hcontent
  obtain ⟨user, project, huser, hproject, rfl⟩ := sources_eq_ok.1 hss
  intro s hs
  rcases List.mem_append.1 hs with hfile | hline
  · rcases List.mem_append.1 hfile with hfile | hfile
    · exact hread huser s hfile
    · exact hread hproject s hfile
  · split at hline
    · exact absurd hline List.not_mem_nil
    · rw [List.mem_singleton.1 hline]
      exact hdirectory

/-- **The build directories of a run** are canonical paths. -/
theorem isCanonical_of_mem_buildDirectories (hdirectory : directory.isAbsolute = true)
    (hload : (load h os directory).value = .ok c) :
    ∀ item ∈ c.get .buildDirectories, (⟨item⟩ : Path).IsCanonical := by
  obtain ⟨ss, hss, rfl⟩ := load_eq_ok.1 hload
  intro item hitem
  rw [get_ofSources] at hitem
  cases hfound : ss.reverse.findSome? fun s => s.value? .buildDirectories with
  | none =>
    rw [hfound] at hitem
    exact absurd hitem List.not_mem_nil
  | some items =>
    rw [hfound] at hitem
    obtain ⟨s, hs, hvalue⟩ := List.exists_of_findSome?_eq_some hfound
    have habs := isAbsolute_directory_of_mem_sources hdirectory hss s (List.mem_reverse.1 hs)
    rw [ConfigSource.value?_eq] at hvalue
    obtain ⟨patterns, -, rfl⟩ := Option.map_eq_some_iff.1 hvalue
    obtain ⟨pattern, -, rfl⟩ := List.mem_map.1 hitem
    exact Path.isCanonical_normalizeIn habs ⟨pattern⟩

/-! ## Reading a value back -/

/-- What an argument with the text of a value makes of it. -/
theorem get_ofSources_text (c : Config) (v : Variable) (base : Path) :
    (ofSources [ConfigSource.ofOverrides [⟨v, c.text v⟩] base]).get v =
      v.seenFrom base ((c.get v).flatMap Override.listItems) := by
  have hset : (Settings.ofOverrides ([] ++ [⟨v, c.text v⟩])).get? v =
      some (Override.listItems (c.text v)) :=
    Settings.get?_ofOverrides_of_last rfl fun o ho => absurd ho List.not_mem_nil
  rw [get_ofSources, List.reverse_singleton, List.findSome?_singleton, ConfigSource.value?_eq]
  change (((Settings.ofOverrides ([] ++ [⟨v, c.text v⟩])).get? v).map (v.seenFrom base)).getD [] = _
  rw [hset, text, Override.listItems_intercalate]
  rfl

/-- **The text of a value is read back as the value** exactly if every item
of it can be an item of a list with commas. -/
theorem text_read_back_iff (hdirectory : directory.isAbsolute = true)
    (hload : (load h os directory).value = .ok c) (v : Variable) (base : Path) :
    ∃ o, Override.ofText (v.key ++ "=" ++ c.text v) = .ok o ∧
      ((ofSources [ConfigSource.ofOverrides [o] base]).get v = c.get v ↔
        ∀ item ∈ c.get v, Override.IsListItem item) := by
  refine ⟨⟨v, c.text v⟩, Override.ofText_eq_ok.2 (.inl rfl), ?_⟩
  rw [get_ofSources_text]
  cases v with
  | buildDirectories =>
    exact ConfigSource.map_resolve_flatMap_listItems_iff
      (isCanonical_of_mem_buildDirectories hdirectory hload)
  | complementers => exact Override.flatMap_listItems_eq_iff

theorem IsRead.of_load {file? : Option Path} {file : Path} {s : Settings}
    (hfile : file? = some file) (hload : Settings.load h (h.absolutePath file) = .ok s) :
    IsRead h file? (some (.fromFile h file s)) := by
  rw [hfile]
  exact .present hload

/-- The project's file of the sample sets the build directories. -/
theorem Sample.load_host : (load Sample.host [] ⟨"/p"⟩).value =
    .ok (ofSources [.fromFile Sample.host ⟨"/u/compdb/config.toml"⟩ ⟨some ["u"], some ["headerdb"]⟩,
      .fromFile Sample.host ⟨"/p/.compdb"⟩ ⟨some ["b"], none⟩]) := by
  have huser := IsRead.of_load Sample.userFile?_host Sample.load_user
  have hproject := IsRead.of_load Sample.localConfig?_host Sample.load_project
  exact load_eq_ok.2 ⟨_, sources_eq_ok.2 ⟨_, _, huser, hproject, rfl⟩, rfl⟩

/-- A build directory without a comma. -/
theorem text_read_back_iff_of_sample : ∃ c, (load Sample.host [] ⟨"/p"⟩).value = .ok c ∧
    c.text .buildDirectories = "/p/b" ∧
    ∃ o, Override.ofText "compdb.build_dir=/p/b" = .ok o ∧
      (ofSources [ConfigSource.ofOverrides [o] ⟨"/u"⟩]).buildDirectories = ["/p/b"] := by
  refine ⟨_, Sample.load_host, by decide, ?_⟩
  obtain ⟨o, ho, hiff⟩ :=
    text_read_back_iff (by decide) Sample.load_host .buildDirectories ⟨"/u"⟩
  refine ⟨o, ho, hiff.2 fun item hitem => ?_⟩
  obtain rfl : item = "/p/b" := by
    have hitems : item ∈ ["/p/b"] := hitem
    exact List.mem_singleton.1 hitems
  exact ⟨by decide, by decide, fun c hc => Option.some.inj hc ▸ by decide,
    fun c hc => Option.some.inj hc ▸ by decide⟩

/-! ## A pattern with alternatives -/

namespace Alternatives

/-- The project's file has a pattern for two build directories. -/
def tree : FileTree where
  entries := [(["p"], .directory),
    (["p", ".compdb"], .file "compdb.build_dir=['\x7ba,b\x7d']\n".toUTF8)]
  distinct := by simp
  proper := by simp; decide
  closed := by simp

def host : Host := ⟨tree, some ["p"], none, none, none⟩

theorem read_project : host.read ⟨"/p/.compdb"⟩ =
    .ok "compdb.build_dir=['\x7ba,b\x7d']\n".toUTF8 :=
  Host.read_toPath (l := ["p", ".compdb"]) (by simp [host, tree])

theorem load_project : Settings.load host ⟨"/p/.compdb"⟩ = .ok ⟨some ["\x7ba,b\x7d"], none⟩ := by
  rw [Settings.load, Host.readText, read_project]
  simp only [Text.fromUTF8?_toUTF8]
  decide

theorem load_host : (load host [] ⟨"/p"⟩).value =
    .ok (ofSources [.fromFile host ⟨"/p/.compdb"⟩ ⟨some ["\x7ba,b\x7d"], none⟩]) := by
  have hproject := IsRead.of_load (Sample.localConfig?_of_read read_project) load_project
  exact load_eq_ok.2 ⟨_, sources_eq_ok.2 ⟨none, _, .absent, hproject, rfl⟩, rfl⟩

/-- **The pattern is shown with its comma** and read back as two. -/
theorem text_not_read_back : (⟨"/p"⟩ : Path).isAbsolute = true ∧
    ∃ c o, (load host [] ⟨"/p"⟩).value = .ok c ∧
      Override.ofText (Variable.buildDirectories.key ++ "=" ++ c.text .buildDirectories) = .ok o ∧
      c.get .buildDirectories = ["/p/\x7ba,b\x7d"] ∧
      (ofSources [ConfigSource.ofOverrides [o] ⟨"/p"⟩]).get .buildDirectories =
        ["/p/\x7ba", "/p/b\x7d"] :=
  ⟨by decide, _, ⟨.buildDirectories, "/p/\x7ba,b\x7d"⟩, load_host, by decide, by decide,
    by decide⟩

end Alternatives

end Config

end CompileCommands
