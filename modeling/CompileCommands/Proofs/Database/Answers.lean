import CompileCommands.Database.Basic
/-!
# Answers of a database

The files of a database are the files of its commands, however it is put
together, and cannot be read exactly when they cannot.
-/

namespace CompileCommands

namespace Database

variable {α β : Type}

/-- Chained answers can be turned into others one by one. -/
theorem chain_map (f : α → β) (a b : Except DbError (List α)) :
    chain (a.map (List.map f)) (b.map (List.map f)) = (chain a b).map (List.map f) := by
  cases a with
  | error e => rfl
  | ok xs =>
    cases b with
    | error e => rfl
    | ok ys => exact congrArg Except.ok List.map_append.symm

/-- Chained answers are there if both are. -/
theorem chain_eq_ok {a b : Except DbError (List α)} {zs : List α} :
    chain a b = .ok zs ↔ ∃ xs ys, a = .ok xs ∧ b = .ok ys ∧ zs = xs ++ ys := by
  unfold chain
  cases a with
  | error e => simp
  | ok xs => cases b <;> simp [Except.map, eq_comm]

theorem chain_assoc (a b c : Except DbError (List α)) :
    chain (chain a b) c = chain a (chain b c) := by
  cases a with
  | error e => rfl
  | ok xs =>
    cases b with
    | error e => rfl
    | ok ys => cases c <;> simp [chain, Except.map]

theorem commandsAll_append (h : Host) (ds es : List Database) :
    commandsAll h (ds ++ es) = chain (commandsAll h ds) (commandsAll h es) := by
  induction ds with
  | nil => cases hes : commandsAll h es <;> simp [commandsAll, chain, hes, Except.map]
  | cons d ds ih => rw [List.cons_append, commandsAll, commandsAll, ih, chain_assoc]

mutual

/-- **The files are those of the commands**, in their order. -/
theorem files_eq_map_commands (h : Host) : ∀ d : Database,
    d.files h = (d.commands h).map (List.map CompileCommand.normalizedFile)
  | null => rfl
  | memory _ => rfl
  | json _ _ => rfl
  | aggregate parts => filesAll_eq_map_commandsAll h parts

theorem filesAll_eq_map_commandsAll (h : Host) : ∀ ds : List Database,
    filesAll h ds = (commandsAll h ds).map (List.map CompileCommand.normalizedFile)
  | [] => rfl
  | d :: ds => by
    rw [filesAll, commandsAll, files_eq_map_commands h d, filesAll_eq_map_commandsAll h ds,
      chain_map]

end

/-! ## Looking up absolute paths -/

theorem chain_matching (target : Path) (a b : Except DbError (List CompileCommand)) :
    chain (a.map (matching target)) (b.map (matching target)) =
      (chain a b).map (matching target) := by
  cases a with
  | error e => rfl
  | ok xs =>
    cases b with
    | error e => rfl
    | ok ys => exact congrArg Except.ok (List.filter_append ..).symm

mutual

/-- **An absolute path is looked up by its canonical form**, in whatever
the database holds. -/
theorem find_of_isAbsolute {h : Host} {p : Path} (hp : p.isAbsolute = true) : ∀ d : Database,
    d.find h p = (d.commands h).map (matching p.normalize)
  | null => rfl
  | memory _ => by
    rw [find, Host.absolutePath, if_pos hp]
    rfl
  | json _ _ => by
    rw [find, Host.logicalPath, if_pos hp]
    rfl
  | aggregate parts => findAll_of_isAbsolute hp parts

theorem findAll_of_isAbsolute {h : Host} {p : Path} (hp : p.isAbsolute = true) :
    ∀ ds : List Database, findAll h p ds = (commandsAll h ds).map (matching p.normalize)
  | [] => rfl
  | d :: ds => by
    rw [findAll, commandsAll, find_of_isAbsolute hp d, findAll_of_isAbsolute hp ds,
      chain_matching]

end

/-- What databases hold is held by one of them. -/
theorem exists_of_mem_commandsAll {h : Host} {ds : List Database} {cs : List CompileCommand}
    (hcs : commandsAll h ds = .ok cs) {c : CompileCommand} (hc : c ∈ cs) :
    ∃ (i : Nat) (d : Database) (xs : List CompileCommand),
      ds[i]? = some d ∧ d.commands h = .ok xs ∧ c ∈ xs := by
  induction ds generalizing cs with
  | nil =>
    cases hcs
    exact absurd hc List.not_mem_nil
  | cons d ds ih =>
    obtain ⟨xs, ys, hxs, hys, rfl⟩ := chain_eq_ok.1 hcs
    rcases List.mem_append.1 hc with hc | hc
    · exact ⟨0, d, xs, rfl, hxs, hc⟩
    · obtain ⟨i, d', zs, hd', hzs, hc⟩ := ih hys hc
      exact ⟨i + 1, d', zs, hd', hzs, hc⟩

end Database

end CompileCommands
