import CompileCommands.Proofs.DirectoryPattern.Expand
import CompileCommands.Proofs.Host.Directories
import CompileCommands.Proofs.Text.Utf8
import CompileCommands.Proofs.Traversal
/-!
# What a pattern matches

A path matches a pattern if its components fit those of the pattern, one
for one, and it leads to a directory along directories (`Matches`). A
pattern expands to the paths that match it, whatever it is made of
(`expand_matching`): a step keeps the directories with one component more
that fits (`exists_advance`), and a run of steps those with as many as the
pattern has (`exists_follow`).
-/

namespace CompileCommands

namespace DirectoryPattern

variable {h : Host} {pattern n : String} {c x : Component} {cs xs ys : List Component}
variable {d p q : Path} {g : Glob}

/-! ## Matching -/

/-- Whether the second component is one that the first one stands for in a
pattern: itself, unless it is a glob. A glob stands for the names that it
matches, those with a dot in front only if it has one too. -/
inductive Fits : Component → Component → Prop
  | same {c : Component} (hplain : ∀ n, c = .name n → isGlob n.toList = false) : Fits c c
  | matched {n m : String} {g : Glob} (hglob : isGlob n.toList = true)
      (hg : Glob.ofText n = .ok g) (hhidden : m.toList.head? = some '.' → n.toList.head? = some '.')
      (hmatch : g.isMatch true m = true) : Fits (.name n) (.name m)

/-- Whether a path is one that the pattern stands for: its components fit
those of the pattern, and it leads to a directory, as every path does that
is made of its first components. -/
structure Matches (h : Host) (pattern : String) (q : Path) : Prop where
  fits : (⟨pattern⟩ : Path).components.Forall₂ Fits q.components
  directory : h.isDirectory q = true
  above : ∀ r : Path, r.components ≠ [] → r.components <+: q.components → h.isDirectory r = true

/-- Whether every component that has to be read as a glob is one. -/
def IsValid (pattern : String) : Prop :=
  ∀ n, .name n ∈ (⟨pattern⟩ : Path).components → isGlob n.toList = true →
    ∃ g, Glob.ofText n = .ok g

theorem fits_of_not_name (hc : ∀ n, c ≠ .name n) : Fits c x ↔ x = c := by
  constructor
  · intro hfits
    cases hfits with
    | same => rfl
    | matched => exact absurd rfl (hc _)
  · rintro rfl
    exact .same fun n hn => absurd hn (hc n)

theorem fits_of_not_isGlob (hplain : isGlob n.toList = false) : Fits (.name n) x ↔ x = .name n := by
  constructor
  · intro hfits
    cases hfits with
    | same => rfl
    | matched hglob =>
      rw [hplain] at hglob
      cases hglob
  · rintro rfl
    refine .same fun m hm => ?_
    rwa [← Component.name.inj hm]

theorem takes_iff {m : String} : takes n g m = true ↔
    (m.toList.head? = some '.' → n.toList.head? = some '.') ∧ g.isMatch true m = true := by
  unfold takes
  rw [Bool.and_eq_true, Bool.or_eq_true, beq_iff_eq, bne_iff_ne]
  refine and_congr_left fun _ => ⟨fun hor hm => hor.resolve_right fun hne => hne hm, fun himp => ?_⟩
  by_cases hm : m.toList.head? = some '.'
  · exact .inl (himp hm)
  · exact .inr hm

theorem fits_of_isGlob (hglob : isGlob n.toList = true) (hg : Glob.ofText n = .ok g) :
    Fits (.name n) x ↔ ∃ m, x = .name m ∧ takes n g m = true := by
  constructor
  · intro hfits
    cases hfits with
    | same hplain =>
      rw [hplain n rfl] at hglob
      cases hglob
    | matched _ hg' hhidden hmatch =>
      obtain rfl := Except.ok.inj (hg'.symm.trans hg)
      exact ⟨_, rfl, takes_iff.2 ⟨hhidden, hmatch⟩⟩
  · rintro ⟨m, rfl, htakes⟩
    obtain ⟨hhidden, hmatch⟩ := takes_iff.1 htakes
    exact .matched hglob hg hhidden hmatch

/-- **What fits the root is the root**, and nothing else does. -/
theorem Fits.root_iff (hfits : Fits c x) : x = .root ↔ c = .root := by
  cases hfits with
  | same => exact Iff.rfl
  | matched => exact ⟨fun hm => (by cases hm), fun hn => (by cases hn)⟩

/-- What fits a step is a step. -/
theorem Fits.ofPiece?_text (hfits : Fits c x) (hx : x.IsProper)
    (hc : Component.ofPiece? c.text.toList = some c ∧ '/' ∉ c.text.toList) :
    Component.ofPiece? x.text.toList = some x ∧ '/' ∉ x.text.toList := by
  cases hfits with
  | same => exact hc
  | matched => exact hx

/-! ## One component further -/

/-- A joined path ends in what has been joined. -/
theorem exists_chars_join (d q : Path) : ∃ front, (d.join q).chars = front ++ q.chars := by
  unfold Path.join
  split
  · exact ⟨[], rfl⟩
  · split
    · exact ⟨[], rfl⟩
    · split
      · exact ⟨d.chars, by simp only [Path.chars, String.toList_append]⟩
      · exact ⟨d.chars ++ ['/'], by simp [Path.chars, String.toList_append]⟩

theorem chars_join_ne_nil (hq : q.chars ≠ []) (d : Path) : (d.join q).chars ≠ [] := by
  obtain ⟨front, hchars⟩ := exists_chars_join d q
  rw [hchars]
  exact List.append_ne_nil_of_right_ne_nil _ hq

theorem onHost_join (hx : x.IsProper) : onHost (d.join ⟨x.text⟩) = d.join ⟨x.text⟩ := by
  have htext : (⟨x.text⟩ : Path).chars ≠ [] := by
    cases x with
    | name m => exact Component.IsName.ne_nil hx
    | _ => exact List.cons_ne_nil _ _
  refine if_neg fun hempty => chars_join_ne_nil htext d (List.isEmpty_iff.1 hempty)

/-- A name below a path is the same for the host. -/
theorem isDirectory_onHost_join (hn : Component.IsName n) :
    h.isDirectory ((onHost d).join ⟨n⟩) = h.isDirectory (d.join ⟨n⟩) := by
  have hsame : h.start? (onHost d) = h.start? d ∧ (onHost d).steps = d.steps := by
    unfold onHost
    split
    · rename_i hempty
      have hd : d = ⟨""⟩ := by rw [← String.toList_eq_nil_iff.1 (List.isEmpty_iff.1 hempty)]
      rw [hd]
      exact ⟨rfl, rfl⟩
    · exact ⟨rfl, rfl⟩
  have hstart : h.start? ((onHost d).join ⟨n⟩) = h.start? (d.join ⟨n⟩) := by
    rw [Host.start?_join_name hn, Host.start?_join_name hn, hsame.1]
  have hsteps : ((onHost d).join ⟨n⟩).steps = (d.join ⟨n⟩).steps := by
    rw [Path.steps_join_name hn, Path.steps_join_name hn, hsame.2]
  have hne : (⟨n⟩ : Path).chars ≠ [] := hn.ne_nil
  rw [Bool.eq_iff_iff]
  exact ⟨Host.isDirectory_of_steps (chars_join_ne_nil hne _) hstart.symm (hsteps ▸ List.prefix_rfl),
    Host.isDirectory_of_steps (chars_join_ne_nil hne _) hstart (hsteps ▸ List.prefix_rfl)⟩

theorem isName_of_mem_list (hn : n ∈ h.list p) : Component.IsName n := by
  unfold Host.list at hn
  split at hn
  · exact FileTree.isName_of_validName (FileTree.validName_of_mem_names hn)
  · exact absurd hn List.not_mem_nil

/-- **The children that a glob takes** are the subdirectories of such a
name. -/
theorem mem_children : p ∈ children h n g d ↔ ∃ m, Component.IsName m ∧ takes n g m = true ∧
    h.isDirectory (d.join ⟨m⟩) = true ∧ p = d.join ⟨m⟩ := by
  unfold children
  simp only [List.mem_map, List.mem_filter, Bool.and_eq_true]
  constructor
  · rintro ⟨m, ⟨hlist, htakes, hdir⟩, rfl⟩
    have hm := isName_of_mem_list hlist
    rw [isDirectory_onHost_join hm] at hdir
    exact ⟨m, hm, htakes, hdir, rfl⟩
  · rintro ⟨m, hm, htakes, hdir, rfl⟩
    rw [← isDirectory_onHost_join hm] at hdir
    exact ⟨m, ⟨Host.mem_list_of_isDirectory (chars_onHost d) hm hdir, htakes, hdir⟩, rfl⟩

theorem advance_name_of_isGlob (hglob : isGlob n.toList = true) (hg : Glob.ofText n = .ok g)
    (dirs : List Path) :
    advance h pattern dirs (.name n) = .ok (dirs.flatMap (children h n g)) := by
  unfold advance
  simp only [hglob, hg, if_true]

theorem advance_name_of_not_isGlob (hplain : isGlob n.toList = false) (dirs : List Path) :
    advance h pattern dirs (.name n) =
      .ok ((dirs.map fun d => d.join ⟨n⟩).filter fun d => h.isDirectory (onHost d)) := by
  unfold advance
  simp only [hplain, Bool.false_eq_true, if_false]
  rfl

/-- **A step** leads from each directory to those below it that fit. -/
theorem exists_advance (hc : c.IsProper)
    (hvalid : ∀ n, c = .name n → isGlob n.toList = true → ∃ g, Glob.ofText n = .ok g)
    (dirs : List Path) : ∃ ps, advance h pattern dirs c = .ok ps ∧ ∀ p, p ∈ ps ↔
      ∃ d ∈ dirs, ∃ x, Fits c x ∧ x.IsProper ∧ h.isDirectory (d.join ⟨x.text⟩) = true ∧
        p = d.join ⟨x.text⟩ := by
  have hplain : (∀ x, Fits c x ↔ x = c) → ∀ p,
      p ∈ (dirs.map fun d => d.join ⟨c.text⟩).filter (fun d => h.isDirectory (onHost d)) ↔
        ∃ d ∈ dirs, ∃ x, Fits c x ∧ x.IsProper ∧ h.isDirectory (d.join ⟨x.text⟩) = true ∧
          p = d.join ⟨x.text⟩ := by
    intro hfits p
    rw [List.mem_filter, List.mem_map]
    constructor
    · rintro ⟨⟨d, hd, rfl⟩, hdir⟩
      rw [onHost_join hc] at hdir
      exact ⟨d, hd, c, (hfits c).2 rfl, hc, hdir, rfl⟩
    · rintro ⟨d, hd, x, hx, -, hdir, rfl⟩
      obtain rfl := (hfits x).1 hx
      exact ⟨⟨d, hd, rfl⟩, by rwa [onHost_join hc]⟩
  cases c with
  | name n =>
    cases hglob : isGlob n.toList with
    | false =>
      exact ⟨_, advance_name_of_not_isGlob hglob dirs, hplain fun x => fits_of_not_isGlob hglob⟩
    | true =>
      obtain ⟨g, hg⟩ := hvalid n rfl hglob
      refine ⟨_, advance_name_of_isGlob hglob hg dirs, fun p => ?_⟩
      simp only [List.mem_flatMap, mem_children, fits_of_isGlob hglob hg]
      constructor
      · rintro ⟨d, hd, m, hm, htakes, hdir, rfl⟩
        exact ⟨d, hd, .name m, ⟨m, rfl, htakes⟩, hm, hdir, rfl⟩
      · rintro ⟨d, hd, -, ⟨m, rfl, htakes⟩, hm, hdir, rfl⟩
        exact ⟨d, hd, m, hm, htakes, hdir, rfl⟩
  | root => exact ⟨_, rfl, hplain fun x => fits_of_not_name fun n hn => by cases hn⟩
  | current => exact ⟨_, rfl, hplain fun x => fits_of_not_name fun n hn => by cases hn⟩
  | parent => exact ⟨_, rfl, hplain fun x => fits_of_not_name fun n hn => by cases hn⟩

/-! ## Component by component -/

/-- Whether the second components lead on from a path, along directories,
and fit the first ones. -/
inductive Along (h : Host) : Path → List Component → List Component → Prop
  | done (d : Path) : Along h d [] []
  | step {d : Path} {c x : Component} {cs xs : List Component} (hfits : Fits c x)
      (hx : x.IsProper) (hdir : h.isDirectory (d.join ⟨x.text⟩) = true)
      (hrest : Along h (d.join ⟨x.text⟩) cs xs) : Along h d (c :: cs) (x :: xs)

/-- **A run of steps** leads from each directory to those that lie along
the components. -/
theorem exists_follow (hcs : ∀ c ∈ cs, c.IsProper)
    (hvalid : ∀ n, .name n ∈ cs → isGlob n.toList = true → ∃ g, Glob.ofText n = .ok g)
    (dirs : List Path) : ∃ ps, follow h pattern dirs cs = .ok ps ∧
      ∀ p, p ∈ ps ↔ ∃ d ∈ dirs, ∃ xs, Along h d cs xs ∧ p = d.joinAll xs := by
  induction cs generalizing dirs with
  | nil =>
    refine ⟨dirs, rfl, fun p => ⟨fun hp => ⟨p, hp, [], .done p, rfl⟩, ?_⟩⟩
    rintro ⟨d, hd, xs, halong, rfl⟩
    cases halong
    exact hd
  | cons c cs ih =>
    obtain ⟨hc, hcs⟩ := List.forall_mem_cons.1 hcs
    have hfirst : ∀ n, c = .name n → isGlob n.toList = true → ∃ g, Glob.ofText n = .ok g :=
      fun n hn => hvalid n (hn ▸ List.mem_cons_self ..)
    obtain ⟨found, hadvance, hfound⟩ : ∃ found, advance h pattern dirs c = .ok found ∧ _ :=
      exists_advance hc hfirst dirs
    obtain ⟨ps, hfollow, hps⟩ := ih hcs (fun n hn => hvalid n (List.mem_cons_of_mem _ hn)) found
    -- a run that has found nothing ends, with what it would have found
    have hstep : follow h pattern dirs (c :: cs) = .ok ps := by
      rw [follow, hadvance]
      cases found with
      | nil =>
        have hnone : ps = [] := List.eq_nil_iff_forall_not_mem.2 fun p hp => by
          obtain ⟨d, hd, -⟩ := (hps p).1 hp
          exact List.not_mem_nil hd
        rw [hnone]
      | cons d found => exact hfollow
    refine ⟨ps, hstep, fun p => ?_⟩
    rw [hps]
    constructor
    · rintro ⟨e, he, xs, halong, rfl⟩
      obtain ⟨d, hd, x, hfits, hx, hdir, rfl⟩ := (hfound e).1 he
      exact ⟨d, hd, x :: xs, .step hfits hx hdir halong, rfl⟩
    · rintro ⟨d, hd, ys, halong, rfl⟩
      cases halong with
      | step hfits hx hdir hrest =>
        exact ⟨_, (hfound _).2 ⟨d, hd, _, hfits, hx, hdir, rfl⟩, _, hrest, rfl⟩

/-- What lies along the components is what fits them and goes through
directories. -/
theorem along_iff : Along h d cs xs ↔ cs.Forall₂ Fits xs ∧ (∀ x ∈ xs, x.IsProper) ∧
    ∀ ys, ys ≠ [] → ys <+: xs → h.isDirectory (d.joinAll ys) = true := by
  constructor
  · intro halong
    induction halong with
    | done d =>
      exact ⟨.nil, fun x hx => absurd hx List.not_mem_nil,
        fun ys hne hys => absurd (List.prefix_nil.1 hys) hne⟩
    | step hfits hx hdir _ ih =>
      obtain ⟨hrest, hproper, habove⟩ := ih
      refine ⟨.cons hfits hrest, List.forall_mem_cons.2 ⟨hx, hproper⟩, fun ys hne hys => ?_⟩
      obtain ⟨y, ys, rfl⟩ := List.exists_cons_of_ne_nil hne
      obtain ⟨rfl, hinitial⟩ := List.cons_prefix_cons.1 hys
      by_cases hnil : ys = []
      · rw [hnil]
        exact hdir
      · exact habove ys hnil hinitial
  · rintro ⟨hfits, hproper, habove⟩
    induction hfits generalizing d with
    | nil => exact .done d
    | @cons c x cs xs hx _ ih =>
      obtain ⟨hxproper, hproper⟩ := List.forall_mem_cons.1 hproper
      refine .step hx hxproper (habove [x] (List.cons_ne_nil _ _) ⟨xs, rfl⟩)
        (ih hproper fun ys _ hys => ?_)
      exact habove (x :: ys) (List.cons_ne_nil _ _) (List.cons_prefix_cons.2 ⟨rfl, hys⟩)

/-! ## The whole pattern -/

/-- Components that fit those of a path are those of a path. -/
theorem components_joinAll_of_fits (hfits : p.components.Forall₂ Fits xs)
    (hproper : ∀ x ∈ xs, x.IsProper) : (Path.empty.joinAll xs).components = xs := by
  have hsteps : ∀ {ys}, p.steps.Forall₂ Fits ys → (∀ y ∈ ys, y.IsProper) →
      ∀ y ∈ ys, Component.ofPiece? y.text.toList = some y ∧ '/' ∉ y.text.toList := by
    intro ys hys hyproper y hy
    obtain ⟨c, hc, hcy⟩ := exists_of_mem_right hys hy
    exact hcy.ofPiece?_text (hyproper y hy) (Path.ofPiece?_text_of_mem_steps hc)
  have hlead : ∀ {c}, p.lead = some c → c = .root ∨ c = .current := by
    intro c hc
    rcases p.lead_cases with hl | hl | hl <;> rw [hl] at hc <;> cases hc
    · exact .inl rfl
    · exact .inr rfl
  rw [Path.components_eq_lead_append] at hfits
  cases hl : p.lead with
  | none =>
    rw [hl, Option.toList_none, List.nil_append] at hfits
    exact Path.components_joinAll_lead (l := none) (.inr (.inr rfl)) (hsteps hfits hproper)
  | some c =>
    rw [hl, Option.toList_some, List.singleton_append] at hfits
    obtain ⟨x, ys, hx, hys, rfl⟩ := List.forall₂_cons_left_iff.1 hfits
    have hc := hlead hl
    -- what a path starts with is no name, and fits itself only
    obtain rfl : x = c := by
      refine (fits_of_not_name fun n hn => ?_).1 hx
      rcases hc with rfl | rfl <;> cases hn
    have hyproper := (List.forall_mem_cons.1 hproper).2
    have hjoined := Path.components_joinAll_lead (l := some x)
      (hc.imp (congrArg some) fun hcurrent => .inl (congrArg some hcurrent)) (hsteps hys hyproper)
    rw [Option.toList_some, List.singleton_append] at hjoined
    exact hjoined

/-- What fits a path starts where it starts. -/
theorem isAbsolute_of_fits (hfits : p.components.Forall₂ Fits q.components) :
    q.isAbsolute = p.isAbsolute := by
  rw [Path.isAbsolute_eq_head?, Path.isAbsolute_eq_head?]
  generalize p.components = cs at hfits
  generalize q.components = xs at hfits
  cases hfits with
  | nil => rfl
  | cons hx =>
    rw [List.head?_cons, List.head?_cons, Bool.eq_iff_iff, beq_iff_eq, beq_iff_eq, Option.some_inj,
      Option.some_inj]
    exact hx.root_iff

/-- **The paths along a pattern** are those that match it. -/
theorem along_iff_matches (hne : (⟨pattern⟩ : Path).components ≠ []) :
    Along h Path.empty (⟨pattern⟩ : Path).components q.components ↔ Matches h pattern q := by
  -- what is put together from the first components is a directory if any spelling of it is
  have hspelled : ∀ {r : Path}, h.isDirectory (Path.empty.joinAll r.components) = h.isDirectory r :=
    fun {r} => Host.isDirectory_congr r.components_spelled
  rw [along_iff]
  constructor
  · rintro ⟨hfits, -, habove⟩
    have hq : q.components ≠ [] := by
      rintro hnil
      rw [hnil] at hfits
      exact hne (List.forall₂_nil_right_iff.1 hfits)
    have hall : ∀ r : Path, r.components ≠ [] → r.components <+: q.components →
        h.isDirectory r = true := fun r hr hrq => hspelled ▸ habove r.components hr hrq
    exact ⟨hfits, hall q hq List.prefix_rfl, hall⟩
  · rintro ⟨hfits, -, habove⟩
    refine ⟨hfits, fun x => Path.isProper_of_mem_components, fun ys hys hinitial => ?_⟩
    have hcomponents := Path.components_joinAll_of_initial hinitial
    exact habove _ (by rwa [hcomponents]) (by rwa [hcomponents])

/-- A pattern without a glob is matched by the directory that it names. -/
theorem matches_iff_of_not_isGlob (hplain : isGlob (trimmed pattern) = false) :
    Matches h pattern q ↔
      (⟨pattern⟩ : Path).components = q.components ∧ h.isDirectory q = true := by
  have hnames : ∀ n, .name n ∈ (⟨pattern⟩ : Path).components → isGlob n.toList = false := by
    intro n hn
    rw [← (whole_spec pattern).1, Path.components_eq_lead_append, List.mem_append] at hn
    have hstep : .name n ∈ (whole pattern).steps := by
      refine hn.resolve_left fun hlead => ?_
      rcases (whole pattern).lead_cases with hl | hl | hl <;> rw [hl] at hlead <;> simp at hlead
    refine List.any_eq_false.2 fun a ha => List.any_eq_false.1 hplain a ?_
    have hchars : (whole pattern).chars = trimmed pattern := String.toList_ofList
    exact hchars ▸ Path.mem_chars_of_mem_steps hstep ha
  have hfits : ∀ {cs xs : List Component}, (∀ n, .name n ∈ cs → isGlob n.toList = false) →
      (cs.Forall₂ Fits xs ↔ cs = xs) := by
    intro cs xs hcs
    constructor
    · intro hfits
      induction hfits with
      | nil => rfl
      | @cons c x cs xs hx _ ih =>
        obtain rfl : x = c := by
          cases hx with
          | same => rfl
          | matched hglob =>
            rw [hcs _ (List.mem_cons_self ..)] at hglob
            cases hglob
        rw [ih fun n hn => hcs n (List.mem_cons_of_mem _ hn)]
    · rintro rfl
      refine List.forall₂_same.2 fun c hc => .same ?_
      rintro n rfl
      exact hcs n hc
  constructor
  · rintro ⟨hall, hdir, -⟩
    exact ⟨(hfits hnames).1 hall, hdir⟩
  · rintro ⟨hsame, hdir⟩
    exact ⟨(hfits hnames).2 hsame, hdir, fun r hr hrq => Host.isDirectory_of_initial hr hrq hdir⟩

/-- **A pattern with a glob** expands to the paths that match it. -/
theorem exists_expand_of_isGlob (hvalid : IsValid pattern)
    (hglob : isGlob (trimmed pattern) = true) : ∃ ds, expand h pattern = .ok ds ∧
      ∀ q : Path, (∃ p ∈ ds, p.same q = true) ↔ Matches h pattern q := by
  have hne : (⟨pattern⟩ : Path).components ≠ [] := by
    intro hnil
    have hchars := Path.components_eq_nil_iff.1 hnil
    have hempty : trimmed pattern = [] := List.subset_nil.1 (hchars ▸ trimmed_subset pattern)
    rw [hempty] at hglob
    cases hglob
  obtain ⟨ps, hfollow, hps⟩ : ∃ ps, follow h pattern [Path.empty]
      (⟨pattern⟩ : Path).components = .ok ps ∧ _ :=
    exists_follow (fun c hc => Path.isProper_of_mem_components hc) hvalid [Path.empty]
  refine ⟨sortPaths ps, ?_, fun q => ?_⟩
  · rw [expand_of_isGlob hglob, (whole_spec pattern).1, hfollow]
    rfl
  · have hsorted : q.components ∈ (sortPaths ps).map Path.components ↔
        q.components ∈ ps.map Path.components := mem_map_components_sortPaths
    rw [List.mem_map, List.mem_map] at hsorted
    simp only [Path.same_iff, hsorted, hps, List.mem_singleton, exists_eq_left]
    rw [← along_iff_matches hne]
    constructor
    · rintro ⟨-, ⟨xs, halong, rfl⟩, hxs⟩
      obtain ⟨hfits, hproper, -⟩ := along_iff.1 halong
      rw [components_joinAll_of_fits hfits hproper] at hxs
      rwa [← hxs]
    · intro halong
      exact ⟨_, ⟨q.components, halong, rfl⟩, q.components_spelled⟩

/-- **A pattern expands to exactly the paths that match it**, each once and
in order, under relative paths if it is relative. Without a glob that is
itself, if it is a directory. -/
theorem expand_matching (h : Host) (hvalid : IsValid pattern) :
    ∃ ds, expand h pattern = .ok ds ∧ ds.Pairwise Path.Precedes ∧
      (∀ q : Path, (∃ p ∈ ds, p.same q = true) ↔ Matches h pattern q) ∧
      (∀ p ∈ ds, p.isAbsolute = (⟨pattern⟩ : Path).isAbsolute) ∧
      (isGlob pattern.toList = false → ∃ p : Path, p.same ⟨pattern⟩ = true ∧
        ds = if h.isDirectory ⟨pattern⟩ then [p] else []) := by
  obtain ⟨ds, hds, hmatches, hitself⟩ : ∃ ds, expand h pattern = .ok ds ∧
      (∀ q : Path, (∃ p ∈ ds, p.same q = true) ↔ Matches h pattern q) ∧
      (isGlob (trimmed pattern) = false →
        ds = if h.isDirectory ⟨pattern⟩ then [whole pattern] else []) := by
    cases hglob : isGlob (trimmed pattern) with
    | true =>
      obtain ⟨ds, hds, hmatches⟩ := exists_expand_of_isGlob (h := h) hvalid hglob
      exact ⟨ds, hds, hmatches, fun hfalse => by cases hfalse⟩
    | false =>
      have hwhole := (whole_spec pattern).1
      have hdir := Host.isDirectory_congr (h := h) hwhole
      refine ⟨_, expand_of_not_isGlob hglob, fun q => ?_, fun _ => by rw [hdir]⟩
      rw [matches_iff_of_not_isGlob hglob, ← hwhole]
      split
      · rename_i hyes
        simp only [List.mem_singleton, exists_eq_left, Path.same_iff]
        refine ⟨fun hsame => ⟨hsame, ?_⟩, fun hboth => hboth.1⟩
        rw [Host.isDirectory_congr hsame] at hyes
        exact hyes
      · rename_i hno
        constructor
        · rintro ⟨p, hp, -⟩
          exact absurd hp List.not_mem_nil
        · rintro ⟨hsame, hq⟩
          rw [Host.isDirectory_congr hsame] at hno
          exact absurd hq hno
  refine ⟨ds, hds, pairwise_of_expand hds, hmatches, fun p hp => ?_, fun hplain => ?_⟩
  · have hmatch := (hmatches p).1 ⟨p, hp, Path.same_iff.2 rfl⟩
    exact isAbsolute_of_fits hmatch.fits
  · exact ⟨whole pattern, Path.same_iff.2 (whole_spec pattern).1, hitself (isGlob_trimmed hplain)⟩

/-! ## A directory that is hidden -/

namespace Hidden

/-- Two directories, of which one has a dot in front. -/
def tree : FileTree where
  entries := [(["b"], .directory), ([".b"], .directory)]
  distinct := by simp
  proper := by simp; decide
  closed := by simp

def host : Host := ⟨tree, none, none, none, none⟩

theorem components_star : (⟨"/*"⟩ : Path).components = [.root, .name "*"] := by decide

theorem isValid_star : IsValid "/*" := by
  intro n hn _
  rw [components_star] at hn
  obtain rfl : n = "*" := by simpa using hn
  exact ⟨.atom .star, rfl⟩

/-- A star takes the one and not the other. -/
theorem expand_matching_star : IsValid "/*" ∧ ∃ ds, expand host "/*" = .ok ds ∧
    (∃ p ∈ ds, p.same ⟨"/b"⟩ = true) ∧ ¬ ∃ p ∈ ds, p.same ⟨"/.b"⟩ = true := by
  obtain ⟨ds, hds, -, hmatches, -⟩ := expand_matching host isValid_star
  refine ⟨isValid_star, ds, hds, (hmatches _).2 ?_, fun hhidden => ?_⟩
  · have hmatch : (Glob.atom .star).isMatch true "b" = true := by
      rw [Glob.isMatch, Text.toList_toUTF8]
      decide
    have hfits : (⟨"/*"⟩ : Path).components.Forall₂ Fits (⟨"/b"⟩ : Path).components := by
      have hroot : Fits .root .root := .same fun n hn => by cases hn
      have hstar : Fits (.name "*") (.name "b") := .matched rfl rfl (by decide) hmatch
      rw [components_star]
      exact .cons hroot (.cons hstar .nil)
    have hdirectory : host.isDirectory ⟨"/b"⟩ = true :=
      Host.isDirectory_iff.2 ⟨["b"], Host.locate_toPath_directory (l := ["b"]) (by decide)⟩
    exact ⟨hfits, hdirectory, fun r hr hrb => Host.isDirectory_of_initial hr hrb hdirectory⟩
  · have hfits := ((hmatches _).1 hhidden).fits
    have hcomponents : (⟨"/.b"⟩ : Path).components = [.root, .name ".b"] := by decide
    rw [components_star, hcomponents, List.forall₂_cons, List.forall₂_cons] at hfits
    obtain ⟨m, hm, htakes⟩ := (fits_of_isGlob (g := .atom .star) (by decide) rfl).1 hfits.2.1
    obtain rfl := Component.name.inj hm
    exact absurd ((takes_iff.1 htakes).1 rfl) (by decide)

end Hidden

end DirectoryPattern

end CompileCommands
