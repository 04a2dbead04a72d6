import CompileCommands.Proofs.Headers.RelativeDirectory
import CompileCommands.Proofs.Path.Spelled
/-!
# Arguments along a line of lenders

A command that is lent to a file is sanitized again when it lends itself,
with another main file in it. What was dropped once cannot come up a
second time, so all that this takes away are the arguments that name one
of the files on the way (`reusableArguments_lentAlong`). They need not be
main files: the value of an option may name a header, and
`reusableArguments_lentAlong_iff` says that nothing else stands between
the lender's options and those that arrive at the end of the line.
-/

namespace CompileCommands

variable {h : Host} {c d : CompileCommand} {p q base : Path} {a f : String} {n : String}
variable {as bs : List String} {isMain : String → Bool} {files : List Path}

/-! ## Names at the end of a path -/

namespace Path

/-- Whether the text of a path ends in its file name. A separator at the
end keeps it from doing so. -/
def EndsInName (p : Path) : Prop := ∀ n, p.fileName? = some n → n.toList <:+ p.chars

theorem fileName?_eq_some : p.fileName? = some n ↔ p.components.getLast? = some (.name n) := by
  unfold fileName?
  constructor
  · intro hn
    split at hn
    · rename_i m hlast
      rw [hlast, Option.some.inj hn]
    · cases hn
  · intro hlast
    rw [hlast]

theorem isSuffix_join (p q : Path) : q.chars <:+ (p.join q).chars := by
  have happend : ∀ s : String, q.chars <:+ (⟨s ++ q.text⟩ : Path).chars := by
    intro s
    exact ⟨s.toList, String.toList_append.symm⟩
  unfold join
  split
  · exact List.suffix_rfl
  · split
    · exact List.suffix_rfl
    · split
      · exact happend p.text
      · exact happend (p.text ++ "/")

theorem joinAll_concat (p : Path) (cs : List Component) (x : Component) :
    p.joinAll (cs ++ [x]) = (p.joinAll cs).join ⟨x.text⟩ := List.foldl_append ..

/-- **A path put together from its components ends in its name.** -/
theorem endsInName_joinAll {cs : List Component} (hcs : (empty.joinAll cs).components = cs) :
    (empty.joinAll cs).EndsInName := by
  intro n hn
  rw [fileName?_eq_some, hcs] at hn
  obtain ⟨front, rfl⟩ := List.getLast?_eq_some_iff.1 hn
  rw [joinAll_concat]
  exact isSuffix_join (empty.joinAll front) ⟨n⟩

theorem IsCanonical.endsInName (hp : p.IsCanonical) : p.EndsInName := by
  have hends : (empty.joinAll p.components).EndsInName :=
    endsInName_joinAll (by rw [hp.joinAll_components])
  rwa [hp.joinAll_components] at hends

/-- The extension of a name is what the name ends in. -/
theorem isSuffix_of_splitName {ext : String} (hext : (splitName n).2 = some ext) :
    '.' :: ext.toList <:+ n.toList := by
  unfold splitName at hext
  split at hext
  · cases hext
  · cases hext
  · rename_i stem ext' _ hcut
    obtain ⟨s, hs, hn⟩ := Text.eq_append_of_cutLast hcut
    obtain rfl : s = '.' := eq_of_beq hs
    obtain rfl := Option.some.inj hext
    rw [String.toList_ofList]
    exact ⟨stem, hn.symm⟩

end Path

/-- **A path relative to an absolute directory ends in its name.** -/
theorem Host.endsInName_relativePath (hp : p.isAbsolute = true) (hbase : base.isAbsolute = true) :
    (h.relativePath p base).EndsInName := by
  have hpabs : (h.absolutePath p).isAbsolute = true := isAbsolute_absolutePath.2 (.inl hp)
  have hbaseabs : (h.absolutePath base).isAbsolute = true := isAbsolute_absolutePath.2 (.inl hbase)
  have hroot := (root_mem_steps_iff (h.absolutePath p) (h.absolutePath base) rfl).not.2
    fun hfalse => by rw [hbaseabs] at hfalse; cases hfalse.2
  unfold relativePath
  dsimp only
  split
  · intro n hn
    cases hn
  · have hnone : Path.empty.components = [] := rfl
    refine Path.endsInName_joinAll ?_
    rw [Path.components_joinAll_steps (fun x hx => ?_), hnone, List.nil_append]
    rcases List.mem_append.1 hx with hup | hdown
    · rw [List.eq_of_mem_replicate hup]
      decide
    · -- the root is shared, so what remains are steps
      have hne : x ≠ .root := fun heq => hroot (heq ▸ hx)
      have hmem := List.mem_of_mem_drop hdown
      rw [Path.components_of_absolute hpabs] at hmem
      exact Path.ofPiece?_text_of_mem_steps ((List.mem_cons.1 hmem).resolve_left hne)

namespace CompileCommand

/-! ## Arguments that pass -/

/-- Whether an argument neither ends the options nor is about the
output. -/
def IsPlain (a : String) : Prop := a ≠ "--" ∧ a ≠ "-c" ∧ ['-', 'o'].isPrefixOf a.toList = false

theorem reusable_cons_of_isPlain (ha : IsPlain a) :
    reusable isMain (a :: as) =
      if isMain a then reusable isMain as else a :: reusable isMain as := by
  obtain ⟨hend, hcompile, houtput⟩ := ha
  have hne : a ≠ "-o" := by
    rintro rfl
    exact absurd houtput (by decide)
  rw [reusable.eq_def]
  simp only [if_neg hend, if_neg hcompile, if_neg hne, houtput, Bool.false_or]

/-- **What passes is plain**, and no main file. -/
theorem isPlain_of_mem_reusable (ha : a ∈ reusable isMain as) : IsPlain a ∧ isMain a = false := by
  fun_induction reusable isMain as with
  | case1 => exact absurd ha List.not_mem_nil
  | case2 => exact absurd ha List.not_mem_nil
  | case3 rest _ ih => exact ih ha
  | case4 => exact absurd ha List.not_mem_nil
  | case5 b rest _ _ ih => exact ih ha
  | case6 b rest _ _ _ _ ih => exact ih ha
  | case7 b rest hend hcompile _ hother ih =>
    rcases List.mem_cons.1 ha with rfl | ha
    · rw [Bool.or_eq_true, not_or, Bool.not_eq_true, Bool.not_eq_true] at hother
      exact ⟨⟨hend, hcompile, hother.1⟩, hother.2⟩
    · exact ih ha

/-- **Plain arguments pass** unless they name the main file. -/
theorem reusable_append (has : ∀ a ∈ as, IsPlain a) :
    reusable isMain (as ++ bs) = as.filter (fun a => !isMain a) ++ reusable isMain bs := by
  induction as with
  | nil => rfl
  | cons a as ih =>
    obtain ⟨ha, has⟩ := List.forall_mem_cons.1 has
    rw [List.cons_append, reusable_cons_of_isPlain ha, ih has]
    cases hmain : isMain a with
    | true => rw [if_pos rfl, List.filter_cons_of_neg (by rw [hmain]; decide)]
    | false => rw [if_neg Bool.false_ne_true, List.filter_cons_of_pos (by rw [hmain]; rfl)]; rfl

/-- The main file of a lent command does not pass, whatever it is
called. -/
theorem reusable_file (hf : isMain f = true) : reusable isMain ["-c", f] = [] := by
  have hnil : reusable isMain [] = [] := reusable.eq_1 isMain
  have hcompile : reusable isMain ["-c", f] = reusable isMain [f] := by
    rw [reusable.eq_def]
    simp only [if_neg (show ¬ "-c" = "--" by decide), if_pos]
  rw [hcompile, reusable.eq_def]
  simp only [hf, hnil, Bool.or_true, if_pos, ite_self]

/-! ## A lent command -/

theorem isMainFile_congr (hfile : c.file = d.file) (hdirectory : c.directory = d.directory) :
    c.isMainFile = d.isMainFile := by
  funext a
  rw [isMainFile, isMainFile, fileSuffix, fileSuffix, normalizedFile, normalizedFile, hfile,
    hdirectory]

/-- A path that ends in its name is a spelling of the main file that is
recognised. -/
theorem isMainFile_file (hends : c.file.EndsInName) : c.isMainFile c.file.text = true := by
  have hsuffix : c.fileSuffix <:+ c.file.chars := by
    unfold fileSuffix
    split
    · rename_i ext hext
      obtain ⟨n, hn, hsplit⟩ := Option.bind_eq_some_iff.1 hext
      exact (Path.isSuffix_of_splitName hsplit).trans (hends n hn)
    · exact List.nil_suffix
  exact Bool.and_eq_true_iff.2 ⟨List.isSuffixOf_iff_suffix.2 hsuffix, beq_self_eq_true _⟩

theorem endsInName_file_lentTo (hdir : c.directory.isAbsolute = true) (hp : p.IsCanonical) :
    (c.lentTo h p).file.EndsInName := by
  change (p.spelledLike h c.file c.directory).EndsInName
  unfold Path.spelledLike
  split
  · rw [Path.join, if_pos hp.1]
    exact hp.endsInName
  · rw [if_pos hp.1]
    exact Host.endsInName_relativePath hp.1 hdir

/-- **What a lent command lends on**: the arguments of its lender that do
not name its own file. -/
theorem reusableArguments_lentTo (hdir : c.directory.isAbsolute = true) (hp : p.IsCanonical) :
    (c.lentTo h p).reusableArguments =
      c.reusableArguments.filter fun a => !(c.lentTo h p).isMainFile a := by
  have hplain : ∀ a ∈ c.reusableArguments, IsPlain a :=
    fun a ha => (isPlain_of_mem_reusable ha).1
  have hmain := isMainFile_file (endsInName_file_lentTo (h := h) hdir hp)
  change reusable _ (c.reusableArguments ++ ["-c", (c.lentTo h p).file.text]) = _
  rw [reusable_append hplain, reusable_file hmain, List.append_nil]

/-- A file is named like the lender's, so like that of the lender's own
lender. -/
theorem file_lentTo_lentTo (hdir : c.directory.isAbsolute = true) (hq : q.IsCanonical) :
    ((c.lentTo h q).lentTo h p).file = (c.lentTo h p).file := by
  have habs : (q.spelledLike h c.file c.directory).isAbsolute = c.file.isAbsolute := by
    unfold Path.spelledLike
    cases hfile : c.file.isAbsolute with
    | true => rw [if_pos rfl, Path.isAbsolute_join, hdir, Bool.true_or]
    | false =>
      rw [if_neg Bool.false_ne_true, if_pos hq.1, Bool.eq_false_iff]
      intro hrelative
      have hbase := (Host.isAbsolute_relativePath.1 hrelative).2
      rw [Host.isAbsolute_absolutePath.2 (.inl hdir)] at hbase
      cases hbase
  change p.spelledLike h (q.spelledLike h c.file c.directory) c.directory =
    p.spelledLike h c.file c.directory
  rw [Path.spelledLike, habs]
  rfl

/-! ## A line of lenders -/

/-- The command that comes down a line of files: the first of them borrows
from `c`, and every other one from the command of the file before it. -/
def lentAlong (h : Host) (c : CompileCommand) (files : List Path) : CompileCommand :=
  files.foldl (CompileCommand.lentTo h) c

theorem lentAlong_cons (h : Host) (c : CompileCommand) (p : Path) (files : List Path) :
    c.lentAlong h (p :: files) = (c.lentTo h p).lentAlong h files := rfl

theorem directory_lentAlong (h : Host) (c : CompileCommand) (files : List Path) :
    (c.lentAlong h files).directory = c.directory := by
  induction files generalizing c with
  | nil => rfl
  | cons p files ih => rw [lentAlong_cons, ih, lentTo]

/-- **What arrives at the end of a line**: the arguments that name none of
its files. -/
theorem reusableArguments_lentAlong (hdir : c.directory.isAbsolute = true)
    (hfiles : ∀ p ∈ files, p.IsCanonical) :
    (c.lentAlong h files).reusableArguments =
      c.reusableArguments.filter fun a => files.all fun p => !(c.lentTo h p).isMainFile a := by
  induction files generalizing c with
  | nil => exact (List.filter_true _).symm
  | cons p files ih =>
    obtain ⟨hp, hfiles⟩ := List.forall_mem_cons.1 hfiles
    have hsame : ∀ q, ((c.lentTo h p).lentTo h q).isMainFile = (c.lentTo h q).isMainFile :=
      fun q => isMainFile_congr (file_lentTo_lentTo hdir hp) rfl
    have hrest := ih (c := c.lentTo h p) hdir hfiles
    rw [lentAlong_cons, hrest, reusableArguments_lentTo hdir hp, List.filter_filter]
    simp only [hsame, List.all_cons, Bool.and_comm]

/-- **A line of lenders hands the arguments on** exactly if none of them
names a file of the line. What it does not hand on are those that do, and
the search directories are the lender's where all arrive. -/
theorem reusableArguments_lentAlong_iff (hdir : c.directory.isAbsolute = true)
    (hfiles : ∀ p ∈ files, p.IsCanonical) :
    (c.lentAlong h files).reusableArguments =
        c.reusableArguments.filter (fun a => files.all fun p => !(c.lentTo h p).isMainFile a) ∧
      ((c.lentAlong h files).reusableArguments = c.reusableArguments ↔
        ∀ p ∈ files, ∀ a ∈ c.reusableArguments, (c.lentTo h p).isMainFile a = false) ∧
      ((c.lentAlong h files).reusableArguments = c.reusableArguments →
        (c.lentAlong h files).searchDirectories = c.searchDirectories) := by
  have harrive := reusableArguments_lentAlong (h := h) hdir hfiles
  refine ⟨harrive, ?_, ?_⟩
  · rw [harrive, List.filter_eq_self]
    simp only [List.all_eq_true, Bool.not_eq_true']
    exact ⟨fun hall p hp a ha => hall a ha p hp, fun hall a ha p hp => hall p hp a ha⟩
  · intro hsame
    rw [searchDirectories, searchDirectories, hsame, directory_lentAlong]

/-! ## A header that is also an option's value -/

namespace ForcedInclude

def host : Host := ⟨FileTree.empty, none, none, none, none⟩

/-- The header is included in front of the source. -/
def command : CompileCommand :=
  ⟨⟨"/w"⟩, ⟨"a.c"⟩, ["cc", "-Iinc", "-include", "x.h", "-c", "a.c", "-o", "a.o"], none⟩

theorem reusableArguments_command :
    command.reusableArguments = ["cc", "-Iinc", "-include", "x.h"] := by
  decide

end ForcedInclude

/-- Two headers that no argument names. -/
theorem reusableArguments_lentAlong_iff_unnamed :
    ForcedInclude.command.directory.isAbsolute = true ∧
      (∀ p ∈ ([⟨"/w/y.h"⟩, ⟨"/w/inc/z.h"⟩] : List Path), p.IsCanonical) ∧
      (ForcedInclude.command.lentAlong ForcedInclude.host
          [⟨"/w/y.h"⟩, ⟨"/w/inc/z.h"⟩]).reusableArguments =
        ["cc", "-Iinc", "-include", "x.h"] ∧
      (ForcedInclude.command.lentAlong ForcedInclude.host
          [⟨"/w/y.h"⟩, ⟨"/w/inc/z.h"⟩]).searchDirectories = [⟨"/w/inc"⟩] := by
  have hdir : ForcedInclude.command.directory.isAbsolute = true := by decide
  have hfiles : ∀ p ∈ ([⟨"/w/y.h"⟩, ⟨"/w/inc/z.h"⟩] : List Path), p.IsCanonical := by
    unfold Path.IsCanonical
    decide
  obtain ⟨-, hiff, hsearch⟩ :=
    reusableArguments_lentAlong_iff (h := ForcedInclude.host) hdir hfiles
  have hsame := hiff.2 (by decide)
  refine ⟨hdir, hfiles, hsame.trans ForcedInclude.reusableArguments_command, ?_⟩
  rw [hsearch hsame]
  decide

/-- **A header that is included in front of its source** is no longer the
value of the option once it has a command of its own, and in the next
command down the line the option takes `-c` for its value. -/
theorem reusableArguments_lentTo_forced :
    ForcedInclude.command.directory.isAbsolute = true ∧ (⟨"/w/x.h"⟩ : Path).IsCanonical ∧
      (ForcedInclude.command.lentTo ForcedInclude.host ⟨"/w/x.h"⟩).reusableArguments =
        ["cc", "-Iinc", "-include"] ∧
      (ForcedInclude.command.lentTo ForcedInclude.host ⟨"/w/x.h"⟩).reusableArguments ≠
        ForcedInclude.command.reusableArguments ∧
      (ForcedInclude.command.lentAlong ForcedInclude.host [⟨"/w/x.h"⟩, ⟨"/w/y.h"⟩]).arguments =
        ["cc", "-Iinc", "-include", "-c", "y.h"] := by
  unfold Path.IsCanonical
  decide

end CompileCommand

end CompileCommands
