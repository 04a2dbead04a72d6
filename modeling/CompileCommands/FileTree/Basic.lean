import CompileCommands.Path.Basic
/-!
# File trees

A file tree is a finite table from locations, the lists of names that
lead down from the root, to what stands there. The table is a tree: no
location stands in it twice, names are names, and whatever stands at a
location stands in a directory. Every operation keeps that, so the
three facts are fields of the type.
-/

namespace CompileCommands

/-- The names that lead from the root to a place in a file tree. -/
abbrev Location := List String

/-- What a directory entry can be called. -/
def ValidName (n : String) : Prop :=
  n ≠ "" ∧ n ≠ "." ∧ n ≠ ".." ∧ '/' ∉ n.toList ∧ '\x00' ∉ n.toList

instance (n : String) : Decidable (ValidName n) :=
  inferInstanceAs (Decidable (_ ∧ _))

/-- What stands at a location. -/
inductive Entry where
  | directory
  | file (content : ByteArray)
  | link (target : Path)

instance : DecidableEq Entry
  | .directory, .directory => .isTrue rfl
  | .file x, .file y =>
    @decidable_of_iff _ (x = y) (by simp) (ByteArray.instDecidableEq x y)
  | .link p, .link q => decidable_of_iff (p = q) (by simp)
  | .directory, .file _ | .directory, .link _ | .file _, .directory | .file _, .link _
  | .link _, .directory | .link _, .file _ => .isFalse nofun

/-- A finite file tree. The root directory is not listed. -/
structure FileTree where
  entries : List (Location × Entry)
  distinct : (entries.map Prod.fst).Nodup
  proper : ∀ e ∈ entries, e.1 ≠ [] ∧ ∀ n ∈ e.1, ValidName n
  closed : ∀ e ∈ entries, e.1.dropLast = [] ∨ (e.1.dropLast, Entry.directory) ∈ entries

namespace FileTree

/-- The tree that holds the root only. -/
def empty : FileTree := ⟨[], by simp, by simp, by simp⟩

instance : Inhabited FileTree := ⟨empty⟩

/-- What stands at a location. -/
def entry? (t : FileTree) (l : Location) : Option Entry :=
  if l = [] then some .directory else t.entries.lookup l

/-- Whether a directory stands at the location. -/
def HasDirectory (t : FileTree) (l : Location) : Prop :=
  l = [] ∨ (l, Entry.directory) ∈ t.entries

instance (t : FileTree) (l : Location) : Decidable (t.HasDirectory l) :=
  inferInstanceAs (Decidable (_ ∨ _))

/-- The entries strictly below a location. -/
def below (t : FileTree) (l : Location) : List (Location × Entry) :=
  t.entries.filter fun e => l.isPrefixOf e.1 && e.1 != l

/-- The names of the entries of a directory. -/
def names (t : FileTree) (l : Location) : List String :=
  t.entries.filterMap fun e => if e.1.dropLast = l then e.1.getLast? else none

/-- Puts `e` where nothing or something other than a directory stands,
provided the place above is a directory and the names are names. -/
def put? (t : FileTree) (l : Location) (e : Entry) : Option FileTree :=
  if h : (l ≠ [] ∧ ∀ n ∈ l, ValidName n) ∧ t.HasDirectory l.dropLast ∧ ¬ t.HasDirectory l then
    some {
      entries := (l, e) :: t.entries.filter fun x => x.1 != l
      distinct := by
        simp only [List.map_cons, List.nodup_cons, List.mem_map, List.mem_filter]
        refine ⟨?_, (t.distinct.sublist (List.Sublist.map _ List.filter_sublist))⟩
        rintro ⟨x, ⟨_, hx⟩, rfl⟩
        simp at hx
      proper := by
        intro x hx
        rcases List.mem_cons.mp hx with rfl | hx
        · exact h.1
        · exact t.proper x (List.mem_filter.mp hx).1
      closed := by
        have keep : ∀ d, t.HasDirectory d → d = [] ∨
            (d, Entry.directory) ∈ (l, e) :: t.entries.filter fun x => x.1 != l := by
          intro d hd
          rcases hd with hd | hd
          · exact Or.inl hd
          · refine Or.inr (List.mem_cons_of_mem _ (List.mem_filter.mpr ⟨hd, ?_⟩))
            have : d ≠ l := fun hl => h.2.2 (Or.inr (hl ▸ hd))
            simpa using this
        intro x hx
        rcases List.mem_cons.mp hx with rfl | hx
        · exact keep _ h.2.1
        · exact keep _ (t.closed x (List.mem_filter.mp hx).1) }
  else none

/-- The tree without what stands at a location and below it. -/
def remove (t : FileTree) (l : Location) : FileTree where
  entries := t.entries.filter fun x => !l.isPrefixOf x.1
  distinct := t.distinct.sublist (List.Sublist.map _ List.filter_sublist)
  proper := fun x hx => t.proper x (List.mem_filter.mp hx).1
  closed := by
    intro x hx
    obtain ⟨hx, hl⟩ := List.mem_filter.mp hx
    rcases t.closed x hx with hd | hd
    · exact Or.inl hd
    · refine Or.inr (List.mem_filter.mpr ⟨hd, ?_⟩)
      simp only [Bool.not_eq_true', Bool.eq_false_iff, ne_eq,
        List.isPrefixOf_iff_prefix] at hl ⊢
      exact fun hp => hl (hp.trans (List.dropLast_prefix _))

end FileTree

end CompileCommands
