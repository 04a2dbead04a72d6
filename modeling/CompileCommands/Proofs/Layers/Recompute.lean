import CompileCommands.Proofs.CommandFile.RoundTrip
import CompileCommands.Proofs.Host.Changes
import CompileCommands.Proofs.Layers.CacheFiles
import CompileCommands.Proofs.Layers.Reading
/-!
# The course of an update

An update takes one complementer after the other, and stops at the first
that fails: it derives nothing, or not one list per directory, or one of
its cache files cannot be written. `Recomputed` says so as a relation
(`recomputed_recompute`), and what is true of every update is an
induction over it: which files of the host change
(`Recomputed.alikeButFiles`), which layers stay as they were
(`Recomputed.alike_take`), what an update that succeeds has done
(`Recomputed.succeeded`), and what it needs to (`Recomputed.eq_none`).
-/

namespace CompileCommands

namespace LayeredDatabase

variable {h h' : Host} {directories : List Path} {layers ls : List Layer}
variable {c : NamedComplementer} {cs : List NamedComplementer} {files : List Path}
variable {failure : Option DbError} {work : List (List CompileCommand × Path)}

/-! ## Saving a layer -/

/-- The first cache file is written, and then the others, or it cannot
be. -/
theorem saveAll_cons_cases (c : NamedComplementer) (h : Host) (commands : List CompileCommand)
    (d : Path) (work : List (List CompileCommand × Path)) :
    (∃ e, saveAll c h ((commands, d) :: work) =
      ⟨[.event (.saving (c.cacheFile d))], h, some (.io (c.cacheFile d) e)⟩) ∨
    ∃ h₁, h.write (c.cacheFile d) (CommandFile.render commands).toUTF8 = .ok h₁ ∧
      saveAll c h ((commands, d) :: work) =
        ⟨.event (.saving (c.cacheFile d)) :: (saveAll c h₁ work).notes,
          (saveAll c h₁ work).host, (saveAll c h₁ work).result⟩ := by
  cases hwrite : h.write (c.cacheFile d) (CommandFile.render commands).toUTF8 with
  | error e => exact .inl ⟨e, saveAll_of_error hwrite⟩
  | ok h₁ => exact .inr ⟨h₁, rfl, saveAll_of_write hwrite⟩

theorem savedFiles_saving (file : Path) (notes : List UpdateNote) :
    savedFiles (.event (.saving file) :: notes) = file :: savedFiles notes := rfl

/-- **Saving a layer changes what is at its cache files.** -/
theorem alikeButFiles_of_saveAll (c : NamedComplementer) (h : Host)
    (work : List (List CompileCommand × Path)) :
    Host.AlikeButFiles (savedFiles (saveAll c h work).notes) h (saveAll c h work).host := by
  induction work generalizing h with
  | nil => exact Host.AlikeButFiles.refl _ h
  | cons w work ih =>
    obtain ⟨commands, d⟩ := w
    rcases saveAll_cons_cases c h commands d work with ⟨e, heq⟩ | ⟨h₁, hwrite, heq⟩
    · rw [heq]
      exact Host.AlikeButFiles.refl _ h
    · rw [heq, savedFiles_saving]
      exact (Host.alikeButFiles_of_write hwrite).trans (ih h₁)

/-- Saving a layer leaves what a file holds, or has written it. -/
theorem read_saveAll_or (c : NamedComplementer) (work : List (List CompileCommand × Path))
    {f : Path} {held : ByteArray} (hf : h.read f = .ok held) :
    ∃ held', (saveAll c h work).host.read f = .ok held' ∧
      (held' = held ∨ ∃ w ∈ work, held' = (CommandFile.render w.1).toUTF8) := by
  induction work generalizing h held with
  | nil => exact ⟨held, hf, .inl rfl⟩
  | cons w work ih =>
    obtain ⟨commands, d⟩ := w
    rcases saveAll_cons_cases c h commands d work with ⟨e, heq⟩ | ⟨h₁, hwrite, heq⟩
    · rw [heq]
      exact ⟨held, hf, .inl rfl⟩
    · rw [heq]
      obtain ⟨held₁, hread₁, hheld₁⟩ := Host.exists_read_of_write hwrite hf
      obtain ⟨held₂, hread₂, hheld₂⟩ := ih hread₁
      refine ⟨held₂, hread₂, ?_⟩
      rcases hheld₂ with rfl | ⟨w, hw, rfl⟩
      · exact hheld₁.imp_right fun hnew => ⟨_, List.mem_cons_self .., hnew⟩
      · exact .inr ⟨w, List.mem_cons_of_mem _ hw, rfl⟩

/-- Cache files that are there can be written. -/
theorem result_saveAll_of_read
    (hfiles : ∀ w ∈ work, ∃ held, h.read (c.cacheFile w.2) = .ok held) :
    (saveAll c h work).result = none := by
  induction work generalizing h with
  | nil => rfl
  | cons w work ih =>
    obtain ⟨commands, d⟩ := w
    obtain ⟨⟨held, hheld⟩, hfiles⟩ := List.forall_mem_cons.1 hfiles
    obtain ⟨h₁, hwrite⟩ :=
      Host.exists_write_of_read hheld (CommandFile.render commands).toUTF8
    rw [saveAll_of_write hwrite]
    refine ih fun w hw => ?_
    obtain ⟨held, hheld⟩ := hfiles w hw
    obtain ⟨held', hread, -⟩ := Host.exists_read_of_write hwrite hheld
    exact ⟨held', hread⟩

/-- All that can go wrong is the writing. -/
theorem eq_io_of_saveAll {e : DbError} (hsaved : (saveAll c h work).result = some e) :
    ∃ file e', e = .io file e' := by
  induction work generalizing h with
  | nil => cases hsaved
  | cons w work ih =>
    obtain ⟨commands, d⟩ := w
    rcases saveAll_cons_cases c h commands d work with ⟨e', heq⟩ | ⟨h₁, -, heq⟩
    · rw [heq] at hsaved
      exact ⟨_, e', (Option.some.inj hsaved).symm⟩
    · rw [heq] at hsaved
      exact ih hsaved

/-- **Every cache file of a saved layer** holds commands that were derived
for a directory, if not for its own then for one that shares the file. -/
theorem load_of_saveAll (hsaved : (saveAll c h work).result = none) :
    ∀ w ∈ work, ∃ w' ∈ work,
      CommandFile.load (saveAll c h work).host (c.cacheFile w.2) = .ok w'.1 := by
  induction work generalizing h with
  | nil => exact fun w hw => absurd hw List.not_mem_nil
  | cons w work ih =>
    obtain ⟨commands, d⟩ := w
    rcases saveAll_cons_cases c h commands d work with ⟨e, heq⟩ | ⟨h₁, hwrite, heq⟩
    · rw [heq] at hsaved
      cases hsaved
    · rw [heq] at hsaved ⊢
      refine List.forall_mem_cons.2 ⟨?_, fun w hw => ?_⟩
      · obtain ⟨held, hread, hheld⟩ := read_saveAll_or c work (Host.read_of_write hwrite)
        rcases hheld with rfl | ⟨w, hw, rfl⟩
        · exact ⟨_, List.mem_cons_self .., CommandFile.load_of_read hread⟩
        · exact ⟨w, List.mem_cons_of_mem _ hw, CommandFile.load_of_read hread⟩
      · obtain ⟨w', hw', hload⟩ := ih hsaved w hw
        exact ⟨w', List.mem_cons_of_mem _ hw', hload⟩

/-- **Cache files that are apart** hold what was derived for their
directories. -/
theorem load_of_saveAll_of_apart (hsaved : (saveAll c h work).result = none)
    (hapart : (work.map fun w => c.cacheFile w.2).Pairwise h.Apart) :
    ∀ w ∈ work, CommandFile.load (saveAll c h work).host (c.cacheFile w.2) = .ok w.1 := by
  induction work generalizing h with
  | nil => exact fun w hw => absurd hw List.not_mem_nil
  | cons w work ih =>
    obtain ⟨commands, d⟩ := w
    obtain ⟨hfirst, hapart⟩ := List.pairwise_cons.1 hapart
    rcases saveAll_cons_cases c h commands d work with ⟨e, heq⟩ | ⟨h₁, hwrite, heq⟩
    · rw [heq] at hsaved
      cases hsaved
    · rw [heq] at hsaved ⊢
      have hh := Host.alikeBut_of_write hwrite
      refine List.forall_mem_cons.2 ⟨?_, ih hsaved (hapart.imp hh.apart)⟩
      -- the others do not touch the first
      rw [(alikeButFiles_of_saveAll c h₁ work).load]
      · exact CommandFile.load_of_read (Host.read_of_write hwrite)
      · intro f hf
        rw [(savedFiles_saveAll c h₁ work).2 hsaved] at hf
        exact hh.apart (hfirst f hf)

/-- What is derived for the directories goes to their cache files. -/
theorem map_cacheFile_zip {out : List (List CompileCommand)}
    (hlength : out.length = directories.length) :
    ((out.zip directories).map fun w => c.cacheFile w.2) = directories.map c.cacheFile := by
  conv_rhs => rw [← List.map_snd_zip (Nat.le_of_eq hlength.symm), List.map_map]
  rfl

theorem savedFiles_of_saved {out : List (List CompileCommand)}
    (hlength : out.length = directories.length)
    (hsaved : (saveAll c h (out.zip directories)).result = none) :
    savedFiles (saveAll c h (out.zip directories)).notes = directories.map c.cacheFile :=
  ((savedFiles_saveAll c h _).2 hsaved).trans (map_cacheFile_zip hlength)

theorem alikeButFiles_of_saved {out : List (List CompileCommand)}
    (hlength : out.length = directories.length)
    (hsaved : (saveAll c h (out.zip directories)).result = none) :
    Host.AlikeButFiles (directories.map c.cacheFile) h (saveAll c h (out.zip directories)).host :=
  savedFiles_of_saved hlength hsaved ▸ alikeButFiles_of_saveAll c h _

/-! ## The steps of an update -/

/-- The layers as a complementer leaves them. -/
def seenBy (c : NamedComplementer) (h : Host) (layers : List Layer) : List Layer :=
  readAt h (c.complementer.reads (contents h layers)) layers

/-- How complementers build on layers, which files they set out to write,
and what host, layers and failure they leave. -/
inductive Recomputed (directories : List Path) : Host → List Layer → List NamedComplementer →
    List Path → Host → List Layer → Option DbError → Prop
  /-- No complementer is left. -/
  | done (h : Host) (layers : List Layer) : Recomputed directories h layers [] [] h layers none
  /-- Nothing can be derived. -/
  | underived {h layers c cs e}
      (hderive : (c.complementer.derive h (contents h layers)).value = .error e) :
      Recomputed directories h layers (c :: cs) [] h (seenBy c h layers) (some e)
  /-- What is derived are not as many lists as there are directories. -/
  | miscounted {h layers c cs out}
      (hderive : (c.complementer.derive h (contents h layers)).value = .ok out)
      (hlength : out.length ≠ directories.length) :
      Recomputed directories h layers (c :: cs) [] h (seenBy c h layers)
        (some (.layerCount c.name directories.length out.length))
  /-- A cache file cannot be written. -/
  | unsaved {h layers c cs out e}
      (hderive : (c.complementer.derive h (contents h layers)).value = .ok out)
      (hlength : out.length = directories.length)
      (hsaved : (saveAll c h (out.zip directories)).result = some e) :
      Recomputed directories h layers (c :: cs)
        (savedFiles (saveAll c h (out.zip directories)).notes)
        (saveAll c h (out.zip directories)).host (seenBy c h layers) (some e)
  /-- The layer is complete, and the others build on it. -/
  | step {h layers c cs out files h' ls failure}
      (hderive : (c.complementer.derive h (contents h layers)).value = .ok out)
      (hlength : out.length = directories.length)
      (hsaved : (saveAll c h (out.zip directories)).result = none)
      (hrest : Recomputed directories (saveAll c h (out.zip directories)).host
        (seenBy c h layers ++ [cacheLayer c directories]) cs files h' ls failure) :
      Recomputed directories h layers (c :: cs) (directories.map c.cacheFile ++ files) h' ls failure

/-- **Every update goes like that.** -/
theorem recomputed_recompute (directories : List Path) (h : Host) (layers : List Layer)
    (cs : List NamedComplementer) :
    Recomputed directories h layers cs (savedFiles (recompute directories h layers cs).notes)
      (recompute directories h layers cs).host (recompute directories h layers cs).result.1
      (recompute directories h layers cs).result.2 := by
  induction cs generalizing h layers with
  | nil => exact .done h layers
  | cons c cs ih =>
    rw [recompute]
    cases hderive : (c.complementer.derive h (contents h layers)).value with
    | error e =>
      simp only [savedFiles_started]
      exact .underived hderive
    | ok out =>
      by_cases hlength : out.length = directories.length
      · simp only [hlength, ne_eq, not_true_eq_false, if_false]
        cases hsaved : (saveAll c h (out.zip directories)).result with
        | some e =>
          simp only [savedFiles_append, savedFiles_started, List.nil_append]
          exact .unsaved hderive hlength hsaved
        | none =>
          simp only [savedFiles_append, savedFiles_started, List.nil_append,
            savedFiles_of_saved hlength hsaved]
          exact .step hderive hlength hsaved (ih _ _)
      · simp only [hlength, ne_eq, not_false_eq_true, if_true, savedFiles_started]
        exact .miscounted hderive hlength

/-! ## The host and the layers afterwards -/

/-- **An update changes what is at its cache files.** -/
theorem Recomputed.alikeButFiles (hr : Recomputed directories h layers cs files h' ls failure) :
    Host.AlikeButFiles files h h' := by
  induction hr with
  | done h layers => exact Host.AlikeButFiles.refl _ h
  | underived hderive => exact Host.AlikeButFiles.refl _ _
  | miscounted hderive hlength => exact Host.AlikeButFiles.refl _ _
  | unsaved hderive hlength hsaved => exact alikeButFiles_of_saveAll ..
  | step hderive hlength hsaved hrest ih =>
    exact (alikeButFiles_of_saved hlength hsaved).trans ih

/-- A complementer leaves the layers as they were. -/
theorem alike_seenBy (c : NamedComplementer) (h : Host) (layers : List Layer) :
    Alike h (seenBy c h layers) layers :=
  alike_readAt h _ layers

theorem length_cacheLayer (c : NamedComplementer) (directories : List Path) :
    (cacheLayer c directories).length = directories.length := List.length_map ..

theorem forall_length_seenBy (hlayers : ∀ l ∈ layers, l.length = directories.length) :
    ∀ l ∈ seenBy c h layers, l.length = directories.length :=
  (alike_seenBy c h layers).symm.forall_length hlayers

/-- The layers that the next complementer is given. -/
theorem forall_length_seenBy_append (hlayers : ∀ l ∈ layers, l.length = directories.length) :
    ∀ l ∈ seenBy c h layers ++ [cacheLayer c directories], l.length = directories.length :=
  List.forall_mem_append.2
    ⟨forall_length_seenBy hlayers, List.forall_mem_singleton.2 (length_cacheLayer c directories)⟩

theorem seenBy_append_ne_nil :
    seenBy c h layers ++ [cacheLayer c directories] ≠ [] :=
  List.append_ne_nil_of_right_ne_nil _ (List.cons_ne_nil _ _)

/-- **Layers are kept, and new ones are as long as there are
directories.** -/
theorem Recomputed.forall_length (hr : Recomputed directories h layers cs files h' ls failure)
    (hlayers : ∀ l ∈ layers, l.length = directories.length) :
    ∀ l ∈ ls, l.length = directories.length := by
  induction hr with
  | done h layers => exact hlayers
  | underived hderive => exact forall_length_seenBy hlayers
  | miscounted hderive hlength => exact forall_length_seenBy hlayers
  | unsaved hderive hlength hsaved => exact forall_length_seenBy hlayers
  | step hderive hlength hsaved hrest ih => exact ih (forall_length_seenBy_append hlayers)

theorem Recomputed.length_le (hr : Recomputed directories h layers cs files h' ls failure) :
    layers.length ≤ ls.length := by
  induction hr with
  | done h layers => exact Nat.le_refl _
  | underived hderive => exact Nat.le_of_eq (alike_seenBy _ _ _).symm.length_eq
  | miscounted hderive hlength => exact Nat.le_of_eq (alike_seenBy _ _ _).symm.length_eq
  | unsaved hderive hlength hsaved => exact Nat.le_of_eq (alike_seenBy _ _ _).symm.length_eq
  | step hderive hlength hsaved hrest ih =>
    rw [List.length_append, (alike_seenBy _ _ _).length_eq] at ih
    omega

/-- **An update that succeeds** goes through all complementers. -/
theorem Recomputed.success_induction
    {motive : ∀ h layers cs files h' ls,
      Recomputed directories h layers cs files h' ls none → Prop}
    (done : ∀ h layers, motive h layers [] [] h layers (.done h layers))
    (step : ∀ {h layers c cs out files h' ls}
      (hderive : (c.complementer.derive h (contents h layers)).value = .ok out)
      (hlength : out.length = directories.length)
      (hsaved : (saveAll c h (out.zip directories)).result = none)
      (hrest : Recomputed directories (saveAll c h (out.zip directories)).host
        (seenBy c h layers ++ [cacheLayer c directories]) cs files h' ls none),
      motive _ _ cs files h' ls hrest →
        motive h layers (c :: cs) _ h' ls (.step hderive hlength hsaved hrest))
    {given : Host} {below : List Layer} {todo : List NamedComplementer} {written : List Path}
    {left : Host} {built : List Layer}
    (hr : Recomputed directories given below todo written left built none) :
    motive given below todo written left built hr := by
  suffices hall : ∀ failure,
      ∀ hr : Recomputed directories given below todo written left built failure,
        ∀ hnone : failure = none, motive given below todo written left built (hnone ▸ hr) from
    hall none hr rfl
  intro failure hr hnone
  induction hr with
  | done h layers => exact done h layers
  | underived hderive => cases hnone
  | miscounted hderive hlength => cases hnone
  | unsaved hderive hlength hsaved => cases hnone
  | step hderive hlength hsaved hrest ih =>
    subst hnone
    exact step hderive hlength hsaved hrest (ih hrest rfl)

theorem Recomputed.length_eq (hr : Recomputed directories h layers cs files h' ls none) :
    ls.length = layers.length + cs.length := by
  induction hr using Recomputed.success_induction with
  | done h layers => rfl
  | step hderive hlength hsaved hrest ih =>
    rw [ih, List.length_append, (alike_seenBy _ _ _).length_eq, List.length_singleton,
      List.length_cons]
    omega

/-- **The layers that were there are as they were**, as long as their
unread files are clear of what is written. -/
theorem Recomputed.alike_take {k : Nat}
    (hr : Recomputed directories h layers cs files h' ls failure)
    (hk : k ≤ layers.length) (hclear : Database.Clear h (unreadIn (layers.take k)) files) :
    Alike h' (ls.take k) (layers.take k) := by
  -- reading the first layers is reading layers cut off there
  have hseen : ∀ {h h' : Host} {c : NamedComplementer} {layers : List Layer} {written : List Path},
      Database.Clear h (unreadIn (layers.take k)) written → Host.AlikeButFiles written h h' →
        Alike h' ((seenBy c h layers).take k) (layers.take k) ∧
          Database.Clear h (unreadIn ((seenBy c h layers).take k)) written := by
    intro h h' c layers written hclear hh
    have hsub : unreadIn ((seenBy c h layers).take k) ⊆ unreadIn (layers.take k) := by
      rw [seenBy, take_readAt]
      exact unreadIn_readAt_subset h _ _
    have hclear' := hclear.mono hsub (List.Subset.refl written)
    exact ⟨((alike_seenBy c h layers).take k).of_kept (hclear'.kept hh) (hclear.kept hh), hclear'⟩
  induction hr with
  | done h layers => exact .refl _ _
  | underived hderive => exact (alike_seenBy _ _ _).take k
  | miscounted hderive hlength => exact (alike_seenBy _ _ _).take k
  | unsaved hderive hlength hsaved => exact (hseen hclear (alikeButFiles_of_saveAll ..)).1
  | @step h layers c cs out files h' ls failure hderive hlength hsaved hrest ih =>
    have hh := alikeButFiles_of_saved hlength hsaved
    have hk' : k ≤ (seenBy c h layers).length := (alike_seenBy c h layers).length_eq ▸ hk
    have htake : (seenBy c h layers ++ [cacheLayer c directories]).take k =
        (seenBy c h layers).take k := List.take_append_of_le_length hk'
    obtain ⟨halike, hclear'⟩ := hseen (c := c) hclear (hh.trans hrest.alikeButFiles)
    have hlater := ih (Nat.le_trans hk' (by rw [List.length_append]; exact Nat.le_add_right _ _))
    rw [htake] at hlater
    exact (hlater ((hclear'.mono (List.Subset.refl _)
      (List.subset_append_right _ _)).host hh)).trans halike

/-! ## An update that succeeds -/

/-- What complementers return in the course of an update. Each is given
the layers and those of the complementers before it as they are read from
their cache files, and then its own cache files hold what it has
returned. -/
inductive Returned (directories : List Path) : Host → List Layer → List NamedComplementer →
    List (List (List CompileCommand)) → Host → Prop
  | nil (h : Host) (layers : List Layer) : Returned directories h layers [] [] h
  | cons {h layers c cs out outs h'}
      (hderive : (c.complementer.derive h (contents h layers)).value = .ok out)
      (hlength : out.length = directories.length)
      (hsaved : (saveAll c h (out.zip directories)).result = none)
      (hread : contents (saveAll c h (out.zip directories)).host [cacheLayer c directories] =
        [out.map .ok])
      (hrest : Returned directories (saveAll c h (out.zip directories)).host
        (layers ++ [cacheLayer c directories]) cs outs h') :
      Returned directories h layers (c :: cs) (out :: outs) h'

theorem unreadAll_cacheLayer (c : NamedComplementer) (directories : List Path) :
    Database.unreadAll (cacheLayer c directories) = directories.map c.cacheFile := by
  induction directories with
  | nil => rfl
  | cons d directories ih => exact congrArg (c.cacheFile d :: ·) ih

theorem sourcesAll_cacheLayer (c : NamedComplementer) (directories : List Path) :
    Database.sourcesAll (cacheLayer c directories) = directories.map c.cacheFile := by
  induction directories with
  | nil => rfl
  | cons d directories ih => exact congrArg (c.cacheFile d :: ·) ih

/-- A layer holds what its files do. -/
theorem contents_cacheLayer {out : List (List CompileCommand)}
    (hlength : out.length = directories.length)
    (hload : ∀ w ∈ out.zip directories, CommandFile.load h (c.cacheFile w.2) = .ok w.1) :
    contents h [cacheLayer c directories] = [out.map .ok] := by
  suffices hheld : (cacheLayer c directories).map (fun d : Database => d.commands h) =
      out.map .ok by rw [contents, List.map_singleton, hheld]
  induction out generalizing directories with
  | nil =>
    rw [List.length_eq_zero_iff.1 hlength.symm]
    rfl
  | cons cs out ih =>
    obtain ⟨d, ds, rfl⟩ := List.exists_cons_of_length_eq_add_one hlength.symm
    rw [List.zip_cons_cons] at hload
    obtain ⟨hd, hds⟩ := List.forall_mem_cons.1 hload
    exact congrArg₂ List.cons hd (ih (Nat.succ.inj hlength) hds)

/-- **What an update that succeeds has done.** If its cache files are apart
from one another and the layers are clear of them, every complementer was
given the layers and the cache files before it, and the layers are now
these and the cache files. -/
theorem Recomputed.succeeded {upper : List Layer}
    (hr : Recomputed directories h upper cs files h' ls none) (halike : Alike h upper layers)
    (hapart : files.Pairwise h.Apart) (hclear : Database.Clear h (sourcesIn layers) files) :
    ∃ outs, Returned directories h layers cs outs h' ∧
      Alike h' ls (layers ++ cs.map (cacheLayer · directories)) := by
  induction hr using Recomputed.success_induction generalizing layers with
  | done h upper =>
    refine ⟨[], .nil h layers, ?_⟩
    rw [List.map_nil, List.append_nil]
    exact halike
  | @step h upper c cs out files h' ls hderive hlength hsaved hrest ih =>
    have hh := alikeButFiles_of_saved hlength hsaved
    obtain ⟨hown, hlater, hcross⟩ := List.pairwise_append.1 hapart
    have hclear' : Database.Clear h (sourcesIn layers) (directories.map c.cacheFile) :=
      hclear.mono (List.Subset.refl _) (List.subset_append_left _ _)
    have hload := load_of_saveAll_of_apart hsaved (by rw [map_cacheFile_zip hlength]; exact hown)
    -- the layers as the complementer leaves them, once its files have been written
    have hseen : Alike (saveAll c h (out.zip directories)).host (seenBy c h upper) layers := by
      refine ((alike_seenBy c h upper).trans halike).of_kept (Database.Clear.kept ?_ hh)
        (Database.Clear.kept ?_ hh)
      · refine hclear'.mono ?_ (List.Subset.refl _)
        rw [← halike.sourcesIn_eq, ← (alike_seenBy c h upper).sourcesIn_eq]
        exact unreadIn_subset_sourcesIn _
      · exact hclear'.mono (unreadIn_subset_sourcesIn _) (List.Subset.refl _)
    have hnext : Database.Clear (saveAll c h (out.zip directories)).host
        (sourcesIn (layers ++ [cacheLayer c directories])) files := by
      intro f hf hok p hp
      rw [sourcesIn, List.flatMap_append, List.mem_append, List.flatMap_singleton,
        sourcesAll_cacheLayer] at hf
      rcases hf with hf | hf
      · have hclear := hclear.mono (List.Subset.refl _) (List.subset_append_right _ files)
        exact hclear.host hh f hf hok p hp
      · exact Host.AlikeBut.apart hh (hcross f hf p hp)
    obtain ⟨outs, houts, hls⟩ := ih (hseen.append (.refl _ [cacheLayer c directories]))
      (hlater.imp (Host.AlikeBut.apart hh)) hnext
    refine ⟨out :: outs, .cons (halike.contents ▸ hderive) hlength hsaved
      (contents_cacheLayer hlength hload) houts, ?_⟩
    rw [List.append_assoc] at hls
    exact hls

/-- **What an update needs to succeed**: cache files that are there, and
complementers that give a list for every directory, from whatever layers
the update can build. -/
theorem Recomputed.eq_none {P : Host → List Layer → Prop}
    (hr : Recomputed directories h layers cs files h' ls failure) (hlayers : P h layers)
    (hderive : ∀ c ∈ cs, ∀ h layers, P h layers → ∃ out,
      (c.complementer.derive h (contents h layers)).value = .ok out ∧
      out.length = directories.length ∧
      ((saveAll c h (out.zip directories)).result = none →
        P (saveAll c h (out.zip directories)).host
          (seenBy c h layers ++ [cacheLayer c directories])))
    (hfiles : ∀ c ∈ cs, ∀ d ∈ directories, ∃ held, h.read (c.cacheFile d) = .ok held) :
    failure = none ∧ P h' ls := by
  induction hr with
  | done h layers => exact ⟨rfl, hlayers⟩
  | @underived h layers c cs e hderived =>
    obtain ⟨out, hout, -⟩ := hderive c (List.mem_cons_self ..) h layers hlayers
    cases hout.symm.trans hderived
  | @miscounted h layers c cs out hderived hlength =>
    obtain ⟨out', hout, hlength', -⟩ := hderive c (List.mem_cons_self ..) h layers hlayers
    cases hout.symm.trans hderived
    exact absurd hlength' hlength
  | @unsaved h layers c cs out e hderived hlength hsaved =>
    have hthere := hfiles c (List.mem_cons_self ..)
    rw [result_saveAll_of_read fun w hw => hthere w.2 (List.of_mem_zip hw).2] at hsaved
    cases hsaved
  | @step h layers c cs out files h' ls failure hderived hlength hsaved hrest ih =>
    obtain ⟨out', hout, -, hnext⟩ := hderive c (List.mem_cons_self ..) h layers hlayers
    cases hout.symm.trans hderived
    have hlater := fun c hc => hderive c (List.mem_cons_of_mem _ hc)
    refine ih (hnext hsaved) hlater fun c' hc' d hd => ?_
    obtain ⟨held, hheld⟩ := hfiles c' (List.mem_cons_of_mem _ hc') d hd
    obtain ⟨held', hread, -⟩ := read_saveAll_or c (out.zip directories) hheld
    exact ⟨held', hread⟩

/-! ## Updates of a layered database -/

/-- **What an update does** to a database: its layers become the new ones,
or the base as it was left and the others as they were. -/
theorem update_cases (h : Host) (s : LayeredDatabase) :
    ∃ ls failure, Recomputed s.directories h (s.layers.take 1) s.complementers
      (savedFiles (s.update h).notes) (s.update h).host ls failure ∧
      ((failure = none ∧ (s.update h).result = ({ s with layers := ls }, none)) ∨
        ∃ e, failure = some e ∧
          (s.update h).result = ({ s with layers := ls.take 1 ++ s.layers.drop 1 }, some e)) := by
  have hr := recomputed_recompute s.directories h (s.layers.take 1) s.complementers
  unfold update
  cases hresult : (recompute s.directories h (s.layers.take 1) s.complementers).result with
  | mk ls failure =>
    rw [hresult] at hr
    cases failure with
    | none =>
      simp only [hresult]
      exact ⟨ls, none, hr, .inl ⟨rfl, rfl⟩⟩
    | some e =>
      simp only [hresult]
      exact ⟨ls, some e, hr, .inr ⟨e, rfl, rfl⟩⟩

/-- **An update succeeds** if its complementers give a list for every
directory and its cache files are there. -/
theorem result_update_eq_none {s : LayeredDatabase}
    (hderive : ∀ c ∈ s.complementers, ∀ h given, ∃ out,
      (c.complementer.derive h given).value = .ok out ∧ out.length = s.directories.length)
    (hfiles : ∀ c ∈ s.complementers, ∀ d ∈ s.directories,
      ∃ held, h.read (c.cacheFile d) = .ok held) :
    (s.update h).result.2 = none := by
  obtain ⟨ls, failure, hr, hresult⟩ := update_cases h s
  obtain ⟨rfl, -⟩ := hr.eq_none (P := fun _ _ => True) trivial (fun c hc h layers _ => by
    obtain ⟨out, hout, hlength⟩ := hderive c hc h (contents h layers)
    exact ⟨out, hout, hlength, fun _ => trivial⟩) hfiles
  rcases hresult with ⟨-, hresult⟩ | ⟨e, he, -⟩
  · rw [hresult]
  · cases he

end LayeredDatabase

end CompileCommands
