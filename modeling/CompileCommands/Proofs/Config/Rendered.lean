import CompileCommands.Proofs.Config.ReadBack
import CompileCommands.Proofs.Toml.Document
/-!
# Configurations that are read back

A configuration is written as a file of one section, which sets both
variables. The file says everything that the configuration says: read as
settings, it has the items of each variable (`Settings.parse_render`), and
since the build directories of a run are canonical paths, they are the same
wherever the file stands (`Config.render_self_contained`).
-/

namespace CompileCommands

namespace Config

open Toml

/-! ## Lines -/

/-- What the line of a variable says. -/
def assignmentOf (c : Config) (v : Variable) : Assignment :=
  ⟨[v.name], .array (textNodes (c.get v))⟩

/-- The name of a variable is a key of one part. -/
theorem key_name (v : Variable) (cs : List Char) :
    key (v.name.toList ++ ' ' :: '=' :: cs) = some ([v.name], '=' :: cs) := by
  cases v <;> rfl

theorem lineContent_name (v : Variable) (cs : List Char) :
    lineContent (v.name.toList ++ cs) =
      (assignment value (v.name.toList ++ cs)).map fun r => (.assignment r.1, r.2) := by
  cases v <;> rfl

theorem line_append (c : Config) (v : Variable) (rest : List Char) : c.line v ++ rest =
    v.name.toList ++ ' ' :: '=' :: ' ' :: '[' :: (listed (c.get v) ++ ']' :: '\n' :: rest) := by
  simp only [line, listed, List.append_assoc, List.cons_append, List.nil_append]

/-- **The line of a variable** gives it its items. -/
theorem lineContent_line (c : Config) (v : Variable) (rest : List Char) :
    lineContent (c.line v ++ rest) = some (.assignment (c.assignmentOf v), '\n' :: rest) := by
  have hspace : skipSpaces (' ' :: '[' :: (listed (c.get v) ++ ']' :: '\n' :: rest)) =
      '[' :: (listed (c.get v) ++ ']' :: '\n' :: rest) := rfl
  rw [line_append, lineContent_name, assignment, key_name]
  simp only [hspace, value_listed, Option.map_some]
  rfl

/-- The line that the section starts with. -/
def headerLine : List Char := ['['] ++ Variable.sectionName.toList ++ [']', '\n']

theorem lineContent_headerLine (rest : List Char) : lineContent (headerLine ++ rest) =
    some (.header (.table [Variable.sectionName]), '\n' :: rest) := rfl

theorem toList_render (c : Config) : c.render.toList =
    headerLine ++ (c.line .buildDirectories ++ (c.line .complementers ++ [])) := by
  rw [render, String.toList_ofList, headerLine, Variable.all]
  rfl

theorem line_ne_nil (c : Config) (v : Variable) (rest : List Char) : c.line v ++ rest ≠ [] := by
  rw [line_append]
  cases v <;> exact List.cons_ne_nil _ _

/-- **The lines of a written configuration.** -/
theorem lines_render (c : Config) : lines c.render.toList.length c.render.toList =
    some [.header (.table [Variable.sectionName]), .assignment (c.assignmentOf .buildDirectories),
      .assignment (c.assignmentOf .complementers)] := by
  -- the header alone has more characters than there are lines
  obtain ⟨n, hn⟩ : ∃ n, c.render.toList.length = n + 3 := by
    refine ⟨c.render.toList.length - 3, ?_⟩
    have hheader : headerLine.length = 9 := by decide
    rw [toList_render, List.length_append, hheader]
    omega
  have hheader : headerLine ++ (c.line .buildDirectories ++ (c.line .complementers ++ [])) ≠ [] :=
    List.cons_ne_nil _ _
  rw [hn, toList_render, lines_cons hheader (lineContent_headerLine _),
    lines_cons (c.line_ne_nil _ _) (c.lineContent_line _ _),
    lines_cons (c.line_ne_nil _ _) (c.lineContent_line _ _), lines]
  rfl

theorem return_not_mem_line (c : Config) (v : Variable) : '\r' ∉ c.line v := by
  have hname : '\r' ∉ v.name.toList := by cases v <;> decide
  have hline := line_append c v []
  rw [List.append_nil] at hline
  rw [hline]
  simp only [List.mem_append, List.mem_cons, not_or]
  exact ⟨hname, by decide, by decide, by decide, by decide, return_not_mem_listed _, by decide,
    by decide, List.not_mem_nil⟩

theorem return_not_mem_render (c : Config) : '\r' ∉ c.render.toList := by
  rw [toList_render]
  simp only [List.mem_append, not_or]
  exact ⟨by decide, c.return_not_mem_line _, c.return_not_mem_line _, List.not_mem_nil⟩

/-! ## Documents -/

/-- What a written configuration holds. -/
def entries (c : Config) : Entries :=
  [(Variable.sectionName, .table .headed
    [(Variable.buildDirectories.name, .array (textNodes c.buildDirectories)),
      (Variable.complementers.name, .array (textNodes c.complementers))])]

theorem ofLines_render (c : Config) :
    ofLines [.header (.table [Variable.sectionName]),
      .assignment (c.assignmentOf .buildDirectories),
      .assignment (c.assignmentOf .complementers)] = some c.entries := by
  rfl

/-- **A written configuration is a document** with both variables. -/
theorem document_render (c : Config) : document c.render = some c.entries := by
  have hfirst : c.render.toList.head? ≠ some '\ufeff' := by
    rw [toList_render]
    exact fun h => absurd (Option.some.inj h) (by decide)
  rw [document_eq hfirst c.return_not_mem_render, lines_render]
  exact ofLines_render c

end Config

namespace Settings

theorem texts?_textNodes (ss : List String) : texts? (Toml.textNodes ss) = some ss := by
  induction ss with
  | nil => rfl
  | cons s ss ih =>
    change (texts? (Toml.textNodes ss)).map (s :: ·) = _
    rw [ih]
    rfl

/-- **A written configuration is read as the settings** that it has. -/
theorem parse_render (file : Path) (c : Config) :
    parse file c.render = .ok ⟨some c.buildDirectories, some c.complementers⟩ := by
  have hsection : ofDocument? c.entries =
      ofNodes? (some (.array (Toml.textNodes c.buildDirectories)))
        (some (.array (Toml.textNodes c.complementers))) := rfl
  rw [parse, Config.document_render, Option.bind_some, hsection, ofNodes?, variableOf?, variableOf?,
    texts?_textNodes, texts?_textNodes]
  rfl

end Settings

namespace Config

variable {h : Host} {os : List Override} {directory : Path} {c : Config}

/-! ## The only source -/

/-- **A configuration that is dumped is complete.** What a run in an
absolute directory has made of its sources can be written and read, and as
the only source, wherever it is based and whatever file it is from, it gives
both variables the values that they have. -/
theorem render_self_contained (hdirectory : directory.isAbsolute = true)
    (hload : (load h os directory).value = .ok c) (file : Path) :
    ∃ s, Settings.parse file c.render = .ok s ∧
      ∀ (base : Path) (origin : Option Path),
        (ofSources [⟨s, base, origin⟩]).buildDirectories = c.buildDirectories ∧
        (ofSources [⟨s, base, origin⟩]).complementers = c.complementers := by
  refine ⟨_, Settings.parse_render file c, fun base origin => ⟨?_, rfl⟩⟩
  have hcanonical := isCanonical_of_mem_buildDirectories hdirectory hload
  change c.buildDirectories.map (ConfigSource.resolve base) = c.buildDirectories
  have hsame : c.buildDirectories.map (ConfigSource.resolve base) = c.buildDirectories.map id :=
    List.map_congr_left fun item hitem => ConfigSource.resolve_of_isCanonical (hcanonical item hitem)
  rw [hsame, List.map_id]

/-- A pattern with alternatives, which a list with commas would take for two
patterns, is still one. -/
theorem render_self_contained_of_alternatives :
    ∃ c, (load Alternatives.host [] ⟨"/p"⟩).value = .ok c ∧
      c.render = "[compdb]\nbuild_dir = [\"/p/\x7ba,b\x7d\"]\ncomplementers = []\n" ∧
      ∃ s, Settings.parse ⟨"/x"⟩ c.render = .ok s ∧
        (ofSources [⟨s, ⟨"x"⟩, none⟩]).buildDirectories = ["/p/\x7ba,b\x7d"] := by
  obtain ⟨s, hs, hsame⟩ := render_self_contained (by decide) Alternatives.load_host ⟨"/x"⟩
  exact ⟨_, Alternatives.load_host, by decide, s, hs, (hsame ⟨"x"⟩ none).1⟩

end Config

end CompileCommands
