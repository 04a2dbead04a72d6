import CompileCommands.Headers.Inference
import CompileCommands.Proofs.FirstOfEach
import CompileCommands.Proofs.Layers.Reading
/-!
# Each file once

Four ways lead to the first command for a file: listing the commands or
the files without repeats passes over what has been seen, a single
database without repeats is listed as it is, and a lookup stops at the
first layer that knows the file and takes one command. They agree
whatever the layers hold, and however often they repeat a file
(`keeps_first_of_each`).
-/

namespace CompileCommands

namespace LayeredDatabase

variable {h : Host} {s : LayeredDatabase} {ls : List Layer} {p : Path}
variable {cs : List CompileCommand}

/-- **A lookup starts with the first of all commands** for the path,
whatever the layers after it repeat. -/
theorem exists_head?_findIn (hp : p.isAbsolute = true)
    (hcs : Database.commandsAll h ls.flatten = .ok cs) :
    ∃ found, findIn h p ls = .ok found ∧
      found.head? = cs.find? fun c => c.normalizedFile == p.normalize := by
  induction ls generalizing cs with
  | nil =>
    cases hcs
    exact ⟨[], rfl, rfl⟩
  | cons l ls ih =>
    rw [List.flatten_cons, Database.commandsAll_append, Database.chain_eq_ok] at hcs
    obtain ⟨xs, ys, hxs, hys, rfl⟩ := hcs
    have hl : Database.findAll h p l = .ok (Database.matching p.normalize xs) := by
      rw [Database.findAll_of_isAbsolute hp, hxs]
      rfl
    have hhead : (Database.matching p.normalize xs).head? =
        xs.find? fun c => c.normalizedFile == p.normalize := List.head?_filter ..
    rw [findIn, hl, List.find?_append, ← hhead]
    cases Database.matching p.normalize xs with
    | nil => exact ih hys
    | cons c rest => exact ⟨c :: rest, rfl, rfl⟩

/-- A single database that repeats no file holds nothing. -/
theorem eq_nil_of_repeatsNone {ds : List Database} (hds : repeatsNone ds = true)
    (hcs : Database.commandsAll h ds = .ok cs) : cs = [] := by
  unfold repeatsNone at hds
  split at hds
  · rename_i d
    cases d with
    | null =>
      cases hcs
      rfl
    | _ => cases hds
  · cases hds

theorem files_true_eq (hcs : Database.commandsAll h s.layers.flatten = .ok cs) :
    s.files h true = .ok (firstOfEach id [] (cs.map CompileCommand.normalizedFile)) := by
  rw [files_eq, hcs]
  cases hnone : repeatsNone s.layers.flatten with
  | false => rfl
  | true =>
    rw [eq_nil_of_repeatsNone hnone hcs]
    rfl

/-- **Listing without repeats keeps the first command of each file**, the
files without repeats are the files of those commands, and looking up an
absolute path gives the one of them that is for the path, or nothing. -/
theorem keeps_first_of_each (hcs : s.commands h false = .ok cs) :
    ∃ us, s.commands h true = .ok us ∧ us = earliest CompileCommand.normalizedFile cs ∧
      s.files h true = .ok (us.map CompileCommand.normalizedFile) ∧
      (us.map CompileCommand.normalizedFile).Nodup ∧
      ∀ p : Path, p.isAbsolute = true → s.find h true p =
        .ok (us.find? fun c => c.normalizedFile == p.normalize).toList := by
  rw [commands_eq_commandsAll] at hcs
  have hunique : s.commands h true =
      .ok (firstOfEach CompileCommand.normalizedFile [] cs) := by
    rw [LayeredDatabase.commands, hcs]
    rfl
  refine ⟨_, hunique, firstOfEach_eq_earliest .., ?_, (nodup_firstOfEach ..).1, ?_⟩
  · rw [files_true_eq hcs, map_firstOfEach]
  · intro p hp
    obtain ⟨found, hfound, hhead⟩ := exists_head?_findIn hp hcs
    rw [LayeredDatabase.find, hfound, find?_firstOfEach List.not_mem_nil, ← hhead,
      ← List.take_one]
    rfl

/-! ## Layers that repeat files -/

namespace Repeats

/-- A command in the directory `/b`. -/
def command (file : String) (arguments : List String) : CompileCommand :=
  ⟨⟨"/b"⟩, ⟨file⟩, arguments, none⟩

def first : List CompileCommand :=
  [command "a.c" ["cc", "-c", "a.c"], command "./a.c" ["cc", "-DX", "-c", "a.c"]]

def second : List CompileCommand :=
  [command "a.h" ["cc", "-c", "a.h"], command "/b/a.c" ["cc", "-DY", "-c", "a.c"]]

theorem isComplementerName_headerdb : isComplementerName "headerdb" = true := by decide

/-- A base layer with two commands for a file, which a cache file
repeats once more. -/
def database : LayeredDatabase where
  backends := Backends.builtin
  complementers := [⟨"headerdb", .headers, isComplementerName_headerdb⟩]
  layers := [[.json ⟨"/b/compile_commands.json"⟩ (some first)],
    [.json ⟨"/b/headerdb.json"⟩ (some second)]]
  directories := [⟨"/b"⟩]
  strict := true

def host : Host := ⟨FileTree.empty, some [], none, none, none⟩

end Repeats

/-- The source has three commands in two layers, and the first of them
stands for it. -/
theorem keeps_first_of_each_of_repeats :
    Repeats.database.commands Repeats.host false = .ok (Repeats.first ++ Repeats.second) ∧
    earliest CompileCommand.normalizedFile (Repeats.first ++ Repeats.second) =
      [Repeats.command "a.c" ["cc", "-c", "a.c"], Repeats.command "a.h" ["cc", "-c", "a.h"]] ∧
    ∃ us, Repeats.database.commands Repeats.host true = .ok us ∧
      us = earliest CompileCommand.normalizedFile (Repeats.first ++ Repeats.second) ∧
      Repeats.database.files Repeats.host true =
        .ok (us.map CompileCommand.normalizedFile) ∧
      (us.map CompileCommand.normalizedFile).Nodup ∧
      ∀ p : Path, p.isAbsolute = true → Repeats.database.find Repeats.host true p =
        .ok (us.find? fun c => c.normalizedFile == p.normalize).toList :=
  ⟨rfl, by decide, keeps_first_of_each rfl⟩

end LayeredDatabase

end CompileCommands
