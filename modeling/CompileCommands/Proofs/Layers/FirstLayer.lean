import CompileCommands.Proofs.Layers.Alignment
import Mathlib.Data.Set.List
/-!
# Layers without common files

A lookup stops at the first layer that knows the file. It gives all
commands for the file if no layer has a command for an absolute path that
an earlier layer has one for (`findIn_eq_matching`). Updates with the
complementer for headers, once or several times, leave such layers: what
a layer holds is frozen when the headers of the next one are inferred,
and what is inferred is new (`Recomputed.separate`). That cache files may
be shared does not matter, as all that is written to one of them is
new. Such an update succeeds if every database can be read and the cache
files are there (`Recomputed.canBeRead`).
-/

namespace CompileCommands

variable {h h' : Host}

/-- **An inferred command for an absolute path** is one for a path that no
command of the layers is for. The directories may be relative. -/
theorem normalizedFile_ne_of_inferred {stack : List Layer} {out : List (List CompileCommand)}
    (hout : (inferHeaders h (LayeredDatabase.contents h stack)).value = .ok out)
    {i : Nat} {x y : CompileCommand} (hx : LayeredDatabase.Holds h stack i x)
    (hy : y ∈ out.flatten) (habs : y.normalizedFile.isAbsolute = true) :
    x.normalizedFile ≠ y.normalizedFile := by
  obtain ⟨css, hread, rfl⟩ := inferHeaders_eq_ok.1 hout
  obtain ⟨f, hf, -, rfl⟩ := Inference.mem_inferred_iff.1 hy
  obtain ⟨-, hincluded⟩ := Inference.found_induction (P := fun _ => True) (fun _ _ => trivial) _
    (fun _ _ _ _ => trivial) f hf
  have hfile : (f.source h).command.normalizedFile = f.header :=
    CompileCommand.normalizedFile_lentTo_of_isAbsolute hincluded habs
  have hnew := (Inference.fresh_rounds h _ _).2 f hf
  rw [hfile]
  exact fun heq => hnew ((LayeredDatabase.mem_known hread).2 ⟨i, x, hx, heq⟩)

namespace LayeredDatabase

variable {ls layers : List Layer} {p : Path} {cs : List CompileCommand}

/-- Whether no command of the later ones is for an absolute path that a
command of the earlier ones is for. -/
def AreNew (earlier later : Contents) : Prop :=
  ∀ xs ys, earlier = .ok xs → later = .ok ys → ∀ x ∈ xs, ∀ y ∈ ys,
    y.normalizedFile.isAbsolute = true → x.normalizedFile ≠ y.normalizedFile

/-- Whether every layer is new to those before it. -/
def Separate (h : Host) (ls : List Layer) : Prop :=
  (ls.map (Database.commandsAll h)).Pairwise AreNew

/-- What layers hold is held by one of them. -/
theorem exists_of_mem_flatten (hcs : Database.commandsAll h ls.flatten = .ok cs)
    {c : CompileCommand} (hc : c ∈ cs) :
    ∃ l ∈ ls, ∃ xs, Database.commandsAll h l = .ok xs ∧ c ∈ xs := by
  induction ls generalizing cs with
  | nil =>
    cases hcs
    exact absurd hc List.not_mem_nil
  | cons l ls ih =>
    rw [List.flatten_cons, Database.commandsAll_append, Database.chain_eq_ok] at hcs
    obtain ⟨xs, ys, hxs, hys, rfl⟩ := hcs
    rcases List.mem_append.1 hc with hc | hc
    · exact ⟨l, List.mem_cons_self .., xs, hxs, hc⟩
    · obtain ⟨m, hm, zs, hzs, hc⟩ := ih hys hc
      exact ⟨m, List.mem_cons_of_mem _ hm, zs, hzs, hc⟩

/-- **Where layers are separate, the first one is all.** A lookup gives
what filtering all commands gives. -/
theorem findIn_eq_matching (hsep : Separate h ls) (hp : p.isAbsolute = true)
    (hcs : Database.commandsAll h ls.flatten = .ok cs) :
    findIn h p ls = .ok (Database.matching p.normalize cs) := by
  induction ls generalizing cs with
  | nil =>
    cases hcs
    rfl
  | cons l ls ih =>
    rw [List.flatten_cons, Database.commandsAll_append, Database.chain_eq_ok] at hcs
    obtain ⟨xs, ys, hxs, hys, rfl⟩ := hcs
    obtain ⟨hfirst, hsep⟩ := List.pairwise_cons.1 hsep
    have hl : Database.findAll h p l = .ok (Database.matching p.normalize xs) := by
      rw [Database.findAll_of_isAbsolute hp, hxs]
      rfl
    have hsplit : Database.matching p.normalize (xs ++ ys) =
        Database.matching p.normalize xs ++ Database.matching p.normalize ys :=
      List.filter_append ..
    rw [findIn, hl, hsplit]
    cases hfound : Database.matching p.normalize xs with
    | nil => exact ih hsep hys
    | cons c rest =>
      -- the layer knows the file, so no later one does
      obtain ⟨hc, hcfile⟩ := List.mem_filter.1 (hfound ▸ List.mem_cons_self .. : c ∈ _)
      have hnone : Database.matching p.normalize ys = [] := by
        refine List.filter_eq_nil_iff.2 fun y hy hyfile => ?_
        obtain ⟨m, hm, zs, hzs, hyzs⟩ := exists_of_mem_flatten hys hy
        have hyfile : y.normalizedFile = p.normalize := eq_of_beq hyfile
        refine hfirst _ (List.mem_map.2 ⟨m, hm, rfl⟩) xs zs hxs hzs c hc y hyzs ?_ ?_
        · rw [hyfile, Path.isAbsolute_normalize, hp]
        · rw [hyfile, eq_of_beq hcfile]
      rw [hnone, List.append_nil]

/-! ## Reading all layers -/

theorem Alike.map_commandsAll (ha : Alike h ls layers) :
    ls.map (Database.commandsAll h) = layers.map (Database.commandsAll h) := by
  have hloaded : ∀ ls : List Layer, (ls.map (Database.loadedAll h)).map (Database.commandsAll h) =
      ls.map (Database.commandsAll h) := by
    intro ls
    rw [List.map_map]
    exact List.map_congr_left fun l _ => Database.commandsAll_loadedAll h l
  rw [← hloaded ls, ha, hloaded]

/-- What has been read stays what it is. -/
theorem map_commandsAll_of_read (hread : unreadIn ls = []) :
    ls.map (Database.commandsAll h') = ls.map (Database.commandsAll h) := by
  refine List.map_congr_left fun l hl => Database.commandsAll_congr l fun f hf => ?_
  have hmem : f ∈ unreadIn ls := mem_unreadIn.2 ⟨l, hl, hf⟩
  exact absurd (hread ▸ hmem) List.not_mem_nil

/-- Whether every database can be read. -/
def CanBeRead (h : Host) (ls : List Layer) : Prop :=
  ∀ l ∈ ls, ∀ d ∈ l, ∃ cs, d.commands h = .ok cs

theorem canBeRead_append : CanBeRead h (ls ++ layers) ↔ CanBeRead h ls ∧ CanBeRead h layers :=
  List.forall_mem_append

theorem canBeRead_iff : CanBeRead h ls ↔
    ∃ css : List (List (List CompileCommand)), contents h ls = css.map (List.map .ok) := by
  constructor
  · intro hread
    have hrange : contents h ls ∈ Set.range (List.map (List.map .ok)) := by
      rw [Set.range_list_map]
      intro x hx
      obtain ⟨l, hl, rfl⟩ := List.mem_map.1 hx
      rw [Set.range_list_map]
      intro y hy
      obtain ⟨d, hd, rfl⟩ := List.mem_map.1 hy
      obtain ⟨cs, hcs⟩ := hread l hl d hd
      exact ⟨cs, hcs.symm⟩
    obtain ⟨css, hcss⟩ := hrange
    exact ⟨css, hcss.symm⟩
  · rintro ⟨css, hcss⟩ l hl d hd
    obtain ⟨i, hi⟩ := List.mem_iff_getElem?.1 hd
    obtain ⟨-, -, cs, -, hcs⟩ := commands_of_contents hcss hl hi
    exact ⟨cs, hcs⟩

/-- Headers are inferred from layers that can be read, and from no
others. -/
theorem canBeRead_iff_inferHeaders :
    CanBeRead h ls ↔ ∃ out, (inferHeaders h (contents h ls)).value = .ok out := by
  rw [canBeRead_iff]
  constructor
  · rintro ⟨css, hcss⟩
    exact ⟨_, inferHeaders_eq_ok.2 ⟨css, hcss, rfl⟩⟩
  · rintro ⟨out, hout⟩
    obtain ⟨css, hcss, -⟩ := inferHeaders_eq_ok.1 hout
    exact ⟨css, hcss⟩

/-- What can be read can be listed. -/
theorem CanBeRead.exists_commandsAll (hread : CanBeRead h ls) :
    ∃ cs, Database.commandsAll h ls.flatten = .ok cs := by
  have hds : ∀ d ∈ ls.flatten, ∃ cs, d.commands h = .ok cs := by
    intro d hd
    obtain ⟨l, hl, hd⟩ := List.mem_flatten.1 hd
    exact hread l hl d hd
  generalize ls.flatten = ds at hds
  induction ds with
  | nil => exact ⟨[], rfl⟩
  | cons d ds ih =>
    obtain ⟨⟨xs, hxs⟩, hds⟩ := List.forall_mem_cons.1 hds
    obtain ⟨ys, hys⟩ := ih hds
    exact ⟨xs ++ ys, Database.chain_eq_ok.2 ⟨xs, ys, hxs, hys, rfl⟩⟩

/-- **Layers that headers are inferred from have been read**, all of
them. -/
theorem unreadIn_seenBy_headers {c : NamedComplementer} (hc : c.complementer = .headers)
    (hread : CanBeRead h layers) : unreadIn (seenBy c h layers) = [] := by
  -- every database comes after readable ones only
  have hchosen : ∀ i j, c.complementer.reads (contents h layers) i j = true := by
    intro i j
    rw [hc]
    refine List.all_eq_true.2 fun x hx => ?_
    have hmem : ∃ m ∈ contents h layers, x ∈ m := by
      rcases List.mem_append.1 hx with hx | hx
      · obtain ⟨m, hm, hx⟩ := List.mem_flatten.1 hx
        exact ⟨m, List.mem_of_mem_take hm, hx⟩
      · have hx := List.mem_of_mem_take hx
        rw [List.getD_eq_getElem?_getD] at hx
        cases hm : (contents h layers)[i]? with
        | none => rw [hm] at hx; exact absurd hx List.not_mem_nil
        | some m => rw [hm] at hx; exact ⟨m, List.mem_of_getElem? hm, hx⟩
    obtain ⟨m, hm, hx⟩ := hmem
    obtain ⟨l, hl, rfl⟩ := List.mem_map.1 hm
    obtain ⟨d, hd, rfl⟩ := List.mem_map.1 hx
    obtain ⟨cs, hcs⟩ := hread l hl d hd
    rw [hcs]
    rfl
  refine List.eq_nil_iff_forall_not_mem.2 fun f hf => ?_
  obtain ⟨l, hl, hf⟩ := mem_unreadIn.1 hf
  obtain ⟨i, hi, rfl⟩ := List.mem_mapIdx.1 hl
  obtain ⟨d, hd, hf⟩ := Database.mem_unreadAll.1 hf
  obtain ⟨j, hj, rfl⟩ := List.mem_mapIdx.1 hd
  rw [hchosen, if_pos rfl] at hf
  obtain ⟨cs, hcs⟩ := hread _ (List.getElem_mem hi) _ (List.getElem_mem hj)
  rw [Database.read, (Database.unread_readThrough h _ hcs).2] at hf
  exact absurd hf List.not_mem_nil

/-! ## Updates with the complementer for headers -/

/-- What is read from cache files that have been saved was derived. -/
theorem mem_flatten_of_saved {c : NamedComplementer} {directories : List Path}
    {out : List (List CompileCommand)}
    (hlength : out.length = directories.length)
    (hsaved : (saveAll c h (out.zip directories)).result = none)
    (hcs : Database.commandsAll (saveAll c h (out.zip directories)).host
      (cacheLayer c directories) = .ok cs) : ∀ x ∈ cs, x ∈ out.flatten := by
  intro x hx
  obtain ⟨i, d, xs, hd, hxs, hx⟩ := Database.exists_of_mem_commandsAll hcs hx
  rw [cacheLayer, List.getElem?_map, Option.map_eq_some_iff] at hd
  obtain ⟨directory, hdirectory, rfl⟩ := hd
  have hmem : directory ∈ (out.zip directories).map Prod.snd := by
    rw [List.map_snd_zip (Nat.le_of_eq hlength.symm)]
    exact List.mem_of_getElem? hdirectory
  obtain ⟨w, hw, rfl⟩ := List.mem_map.1 hmem
  -- the file holds what was derived for some directory
  obtain ⟨w', hw', hload⟩ := load_of_saveAll hsaved w hw
  obtain rfl := Except.ok.inj (hxs.symm.trans hload)
  exact List.mem_flatten.2 ⟨_, (List.of_mem_zip hw').1, hx⟩

/-- **Inferring headers keeps layers separate.** -/
theorem Recomputed.separate {directories files : List Path} {cs : List NamedComplementer}
    (hr : Recomputed directories h layers cs files h' ls none)
    (hcs : ∀ c ∈ cs, c.complementer = .headers) (hsep : Separate h layers) : Separate h' ls := by
  induction hr using Recomputed.success_induction with
  | done h layers => exact hsep
  | @step h layers c cs out files h' ls hderive hlength hsaved hrest ih =>
    obtain ⟨hc, hcs⟩ := List.forall_mem_cons.1 hcs
    rw [hc] at hderive
    refine ih hcs ?_
    have hread := unreadIn_seenBy_headers (c := c) hc
      (canBeRead_iff_inferHeaders.2 ⟨out, hderive⟩)
    -- the layers before, as they were read
    have hbefore : (seenBy c h layers).map
        (Database.commandsAll (saveAll c h (out.zip directories)).host) =
          layers.map (Database.commandsAll h) :=
      (map_commandsAll_of_read hread).trans (alike_seenBy c h layers).map_commandsAll
    rw [Separate, List.map_append, hbefore, List.map_singleton]
    refine List.pairwise_append.2 ⟨hsep, List.pairwise_singleton _ _, ?_⟩
    intro earlier hearlier later hlater
    obtain ⟨l, hl, rfl⟩ := List.mem_map.1 hearlier
    obtain rfl := List.mem_singleton.1 hlater
    intro xs ys hxs hys x hx y hy habs
    obtain ⟨i, d, zs, hd, hzs, hx⟩ := Database.exists_of_mem_commandsAll hxs hx
    exact normalizedFile_ne_of_inferred hderive ⟨l, hl, d, zs, hd, hzs, hx⟩
      (mem_flatten_of_saved hlength hsaved hys y hy) habs

/-- What is read through can be read again after a layer has been saved,
and so can that layer. -/
theorem canBeRead_saved {c : NamedComplementer} {directories : List Path}
    {out : List (List CompileCommand)} (hc : c.complementer = .headers)
    (hread : CanBeRead h layers) (hlength : out.length = directories.length)
    (hsaved : (saveAll c h (out.zip directories)).result = none) :
    CanBeRead (saveAll c h (out.zip directories)).host
      (seenBy c h layers ++ [cacheLayer c directories]) := by
  refine canBeRead_append.2 ⟨?_, ?_⟩
  · have hnone := unreadIn_seenBy_headers hc hread
    have hkept : contents (saveAll c h (out.zip directories)).host (seenBy c h layers) =
        contents h (seenBy c h layers) :=
      contents_congr fun f hf => absurd (hnone ▸ hf) List.not_mem_nil
    rw [canBeRead_iff, hkept, (alike_seenBy c h layers).contents]
    exact canBeRead_iff.1 hread
  · intro l hl d hd
    obtain rfl := List.mem_singleton.1 hl
    obtain ⟨directory, hdirectory, rfl⟩ := List.mem_map.1 hd
    rw [← List.map_snd_zip (Nat.le_of_eq hlength.symm)] at hdirectory
    obtain ⟨w, hw, rfl⟩ := List.mem_map.1 hdirectory
    obtain ⟨w', -, hload⟩ := load_of_saveAll hsaved w hw
    exact ⟨w'.1, hload⟩

/-- **Headers can be inferred and saved** from layers that can be read, if
the cache files are there, and then all layers can be read. -/
theorem Recomputed.canBeRead {directories files : List Path} {cs : List NamedComplementer}
    {failure : Option DbError}
    (hr : Recomputed directories h layers cs files h' ls failure)
    (hcs : ∀ c ∈ cs, c.complementer = .headers)
    (hfiles : ∀ c ∈ cs, ∀ d ∈ directories, ∃ held, h.read (c.cacheFile d) = .ok held)
    (hne : layers ≠ []) (hlayers : ∀ l ∈ layers, l.length = directories.length)
    (hread : CanBeRead h layers) : failure = none ∧ CanBeRead h' ls := by
  suffices hall : failure = none ∧ ls ≠ [] ∧ (∀ l ∈ ls, l.length = directories.length) ∧
      CanBeRead h' ls from ⟨hall.1, hall.2.2.2⟩
  refine hr.eq_none (P := fun h layers => layers ≠ [] ∧
    (∀ l ∈ layers, l.length = directories.length) ∧ CanBeRead h layers)
    ⟨hne, hlayers, hread⟩ ?_ hfiles
  rintro c hc h layers ⟨hne, hlayers, hread⟩
  obtain ⟨out, hout⟩ := canBeRead_iff_inferHeaders.1 hread
  have hlength := (infersFor_of_length hne hlayers).length out hout
  refine ⟨out, hcs c hc ▸ hout, hlength, fun hsaved => ?_⟩
  exact ⟨seenBy_append_ne_nil, forall_length_seenBy_append hlayers,
    canBeRead_saved (hcs c hc) hread hlength hsaved⟩

end LayeredDatabase

end CompileCommands
