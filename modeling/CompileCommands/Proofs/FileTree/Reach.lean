import CompileCommands.Proofs.Host.Spots
import Mathlib.Algebra.Order.BigOperators.Group.Finset
/-!
# How many paths lead anywhere

A tree with links can be entered under more paths than it has entries,
but not under arbitrarily many: a canonical path goes down to an entry,
and what follows a link is again such a path from where the link leads,
with one link less to pass. So there are at most `(n + 1) ^ (k + 1)`
paths past `k` links in a tree of `n` entries. Whatever goes on only as
long as it meets a new one of finitely many files has an end
(`card_filter_append_lt`).
-/

namespace CompileCommands

namespace FileTree

variable {t : FileTree} {links : Nat} {dir : Location}

/-! ## Where a path goes on -/

/-- **A beginning of a path either fails or leads to a directory**, from
which the rest is followed with what links remain. -/
theorem follow_append (t : FileTree) (links : Nat) (dir : Location) (xs : List (List Char)) :
    (∃ k ≤ links, ∃ d, ∀ ys, ys ≠ [] → t.follow links dir (xs ++ ys) = t.follow k d ys) ∨
      ∀ ys, ys ≠ [] → ∃ e, t.follow links dir (xs ++ ys) = .error e := by
  induction links, dir, xs using follow_induction (t := t) with
  | nil links dir => exact .inl ⟨links, le_refl _, dir, fun ys _ => rfl⟩
  | none links dir piece rest n hp he =>
    refine .inr fun ys hys => ⟨.notFound, ?_⟩
    rw [List.cons_append, follow_none hp he, if_neg (by simp [hys])]
  | directory links dir piece rest n hp he ih =>
    simpa only [List.cons_append, follow_directory hp he] using ih
  | file links dir piece rest n c hp he =>
    refine .inr fun ys hys => ⟨.notDirectory, ?_⟩
    rw [List.cons_append, follow_file hp he, if_neg (by simp [hys])]
  | linkZero dir piece rest n target hp he =>
    exact .inr fun ys _ => ⟨.tooManyLinks, follow_link_zero hp he⟩
  | linkSucc links dir piece rest n target hp he ih =>
    simp only [List.cons_append, follow_link_succ hp he, ← List.append_assoc]
    rcases ih with ⟨k, hk, d, hd⟩ | herr
    · exact .inl ⟨k, Nat.le_succ_of_le hk, d, hd⟩
    · exact .inr herr
  | parent links dir piece rest hp ih =>
    simpa only [List.cons_append, follow_parent hp] using ih
  | idle links dir piece rest hp ih =>
    simpa only [List.cons_append, follow_idle hp] using ih

/-- Whether names lead from a directory to something that is there. -/
def Leads (t : FileTree) (links : Nat) (dir : Location) (ns : List String) : Prop :=
  ∃ l e, t.follow links dir (ns.map String.toList) = .ok (.taken l e)

/-- Whether names lead somewhere behind an entry: it is a link, and they
do from where it leads. -/
def LeadsBehind (t : FileTree) (links : Nat) (x : Location × Entry) (ns : List String) : Prop :=
  ∃ target k, x.2 = .link target ∧ links = k + 1 ∧
    ∃ l e, t.follow k (if target.isAbsolute then [] else x.1.dropLast)
      (Text.fields (· == '/') target.chars ++ ns.map String.toList) = .ok (.taken l e)

/-- **Names that lead somewhere lead down to an entry**, the last of them
or a link, and the others lead on behind it. -/
theorem exists_entry_of_leads {ns : List String} (hne : ns ≠ [])
    (hns : ∀ n ∈ ns, Component.IsName n) (hleads : t.Leads links dir ns) :
    ∃ m rest e, ns = m ++ rest ∧ m ≠ [] ∧ t.entry? (dir ++ m) = some e ∧
      (rest = [] ∨ t.LeadsBehind links (dir ++ m, e) rest) := by
  induction ns generalizing dir with
  | nil => exact absurd rfl hne
  | cons n ns ih =>
    have hp := (hns n (List.mem_cons_self ..)).1
    obtain ⟨l, e, hfollow⟩ := hleads
    rw [List.map_cons] at hfollow
    cases he : t.entry? (dir ++ [n]) with
    | none =>
      rw [follow_none hp he] at hfollow
      split at hfollow <;> cases hfollow
    | some x =>
      cases x with
      | directory =>
        by_cases hnil : ns = []
        · exact ⟨[n], [], .directory, by rw [hnil]; rfl, by simp, he, .inl rfl⟩
        rw [follow_directory hp he] at hfollow
        obtain ⟨m, rest, e', rfl, hm, hentry, hrest⟩ :=
          ih hnil (fun k hk => hns k (List.mem_cons_of_mem _ hk)) ⟨l, e, hfollow⟩
        rw [List.append_assoc, List.singleton_append] at hentry hrest
        exact ⟨n :: m, rest, e', rfl, by simp, hentry, hrest⟩
      | file c =>
        rw [follow_file hp he] at hfollow
        split at hfollow
        · rename_i hempty
          have hnil : ns = [] := by simpa using hempty
          exact ⟨[n], [], .file c, by rw [hnil]; rfl, by simp, he, .inl rfl⟩
        · cases hfollow
      | link target =>
        cases links with
        | zero =>
          rw [follow_link_zero hp he] at hfollow
          cases hfollow
        | succ k =>
          -- the link is the entry, whatever the names behind it are
          rw [follow_link_succ hp he] at hfollow
          refine ⟨[n], ns, .link target, rfl, by simp, he, .inr ⟨target, k, rfl, rfl, l, e, ?_⟩⟩
          rw [List.dropLast_concat]
          exact hfollow

/-! ## Counting paths -/

/-- Whether at most the given number of names lead somewhere. -/
def Bounded (t : FileTree) (links : Nat) (dir : Location) (size : Nat) : Prop :=
  ∃ F : Finset (List String), F.card ≤ size ∧
    ∀ ns, ns ≠ [] → (∀ n ∈ ns, Component.IsName n) → t.Leads links dir ns → ns ∈ F

/-- No more names lead on behind an entry than lead somewhere with one
link less to pass. -/
theorem exists_behind {bound : Nat} (hbound : ∀ k < links, ∀ dir, t.Bounded k dir bound)
    (x : Location × Entry) :
    ∃ F : Finset (List String), F.card ≤ bound ∧
      ∀ ns, ns ≠ [] → (∀ n ∈ ns, Component.IsName n) → t.LeadsBehind links x ns → ns ∈ F := by
  by_cases hlink : ∃ target k, x.2 = .link target ∧ links = k + 1
  · obtain ⟨target, k, htarget, rfl⟩ := hlink
    -- the way behind a link is the same for all that goes on there
    rcases t.follow_append k (if target.isAbsolute then [] else x.1.dropLast)
      (Text.fields (· == '/') target.chars) with ⟨k', hk', d, hd⟩ | herr
    · obtain ⟨F, hcard, hF⟩ := hbound k' (by omega) d
      refine ⟨F, hcard, fun ns hne hns hbehind => hF ns hne hns ?_⟩
      obtain ⟨target', k'', htarget', hk, l, e, hfollow⟩ := hbehind
      obtain rfl := Entry.link.inj (htarget.symm.trans htarget')
      obtain rfl := Nat.succ.inj hk
      rw [hd _ (by simpa using hne)] at hfollow
      exact ⟨l, e, hfollow⟩
    · refine ⟨∅, by simp, fun ns hne _ hbehind => ?_⟩
      obtain ⟨target', k', htarget', hk, l, e, hfollow⟩ := hbehind
      obtain rfl := Entry.link.inj (htarget.symm.trans htarget')
      obtain rfl := Nat.succ.inj hk
      obtain ⟨err, herr⟩ := herr (ns.map String.toList) (by simpa using hne)
      cases herr.symm.trans hfollow
  · refine ⟨∅, by simp, fun ns _ _ hbehind => ?_⟩
    obtain ⟨target, k, htarget, hk, -⟩ := hbehind
    exact absurd ⟨target, k, htarget, hk⟩ hlink

/-- **Only so many paths lead anywhere.** -/
theorem bounded_pow (t : FileTree) (links : Nat) (dir : Location) :
    t.Bounded links dir ((t.entries.length + 1) ^ (links + 1) - 1) := by
  induction links using Nat.strong_induction_on generalizing dir with
  | _ links ih =>
    have hpos : 0 < (t.entries.length + 1) ^ links := Nat.pow_pos (Nat.succ_pos _)
    -- one bound for all that can be left of the links once one has been passed
    have hbound : ∀ k < links, ∀ dir, t.Bounded k dir ((t.entries.length + 1) ^ links - 1) := by
      intro k hk dir
      obtain ⟨F, hcard, hF⟩ := ih k hk dir
      have hmono : (t.entries.length + 1) ^ (k + 1) ≤ (t.entries.length + 1) ^ links :=
        Nat.pow_le_pow_right (Nat.succ_pos _) hk
      exact ⟨F, by omega, hF⟩
    choose F hcard hF using exists_behind hbound
    -- through an entry: the way down to it, alone or with what is behind
    let G : Location × Entry → Finset (List String) := fun x =>
      insert (x.1.drop dir.length) ((F x).image (x.1.drop dir.length ++ ·))
    have hG : ∀ x, (G x).card ≤ (t.entries.length + 1) ^ links := fun x => by
      have hinsert := Finset.card_insert_le (x.1.drop dir.length)
        ((F x).image (x.1.drop dir.length ++ ·))
      have himage : ((F x).image (x.1.drop dir.length ++ ·)).card ≤ (F x).card :=
        Finset.card_image_le
      have hx := hcard x
      simp only [G]
      omega
    refine ⟨t.entries.toFinset.biUnion G, ?_, ?_⟩
    · have hentries : t.entries.toFinset.card ≤ t.entries.length := List.toFinset_card_le _
      calc (t.entries.toFinset.biUnion G).card
          ≤ t.entries.toFinset.card * (t.entries.length + 1) ^ links :=
            Finset.card_biUnion_le_card_mul _ _ _ fun x _ => hG x
        _ ≤ t.entries.length * (t.entries.length + 1) ^ links := Nat.mul_le_mul_right _ hentries
        _ ≤ (t.entries.length + 1) ^ (links + 1) - 1 := by
          rw [Nat.pow_succ, Nat.mul_comm _ (t.entries.length + 1), Nat.succ_mul]
          omega
    · intro ns hne hns hleads
      obtain ⟨m, rest, e, rfl, hm, hentry, hrest⟩ := exists_entry_of_leads hne hns hleads
      have hmem := mem_entries_of_entry? (by simp [hm]) hentry
      refine Finset.mem_biUnion.2 ⟨(dir ++ m, e), List.mem_toFinset.2 hmem, ?_⟩
      simp only [G, List.drop_left]
      by_cases hnil : rest = []
      · rw [hnil, List.append_nil]
        exact Finset.mem_insert_self ..
      · refine Finset.mem_insert_of_mem (Finset.mem_image_of_mem _ ?_)
        exact hF _ rest hnil (fun n hn => hns n (List.mem_append_right _ hn))
          (hrest.resolve_left hnil)

end FileTree

/-! ## Canonical paths of files -/

namespace Host

variable {h : Host} {p : Path}

/-- A file that is read under a canonical path is reached by its names. -/
theorem leads_of_read {ns : List String} (hns : ∀ n ∈ ns, Component.IsName n)
    {content : ByteArray} (hread : h.read (Place.absolute ns).toPath = .ok content) :
    ns ≠ [] ∧ h.tree.Leads FileTree.linkLimit [] ns := by
  obtain ⟨l, hspot⟩ := spot_of_read hread
  obtain ⟨-, -, d, hd, hfollow⟩ := spot_eq_ok_iff.1 hspot
  rw [start?, if_pos (Place.isAbsolute_toPath_absolute ns)] at hd
  obtain rfl := Option.some.inj hd
  cases ns with
  | nil =>
    -- the root itself is no file
    rw [show Text.fields (· == '/') (Place.absolute []).toPath.chars = [[], []] from rfl,
      FileTree.follow_idle rfl, FileTree.follow_idle rfl, FileTree.follow_nil] at hfollow
    cases hfollow
  | cons n ns =>
    have hne : n :: ns ≠ [] := List.cons_ne_nil n ns
    rw [fields_toPath_absolute hne hns, FileTree.follow_idle rfl] at hfollow
    exact ⟨hne, l, .file content, hfollow⟩

/-- **Fewer files can be read under canonical paths than a run has
rounds.** -/
theorem exists_readable (h : Host) :
    ∃ F : Finset Path, F.card < (h.tree.entries.length + 2) ^ (FileTree.linkLimit + 2) ∧
      ∀ p : Path, p.IsCanonical → ∀ content, h.read p = .ok content → p ∈ F := by
  obtain ⟨F, hcard, hF⟩ := h.tree.bounded_pow FileTree.linkLimit []
  refine ⟨F.image fun ns => (Place.absolute ns).toPath, ?_, ?_⟩
  · have himage : (F.image fun ns => (Place.absolute ns).toPath).card ≤ F.card :=
      Finset.card_image_le
    have hbase : (h.tree.entries.length + 1) ^ (FileTree.linkLimit + 1) ≤
        (h.tree.entries.length + 2) ^ (FileTree.linkLimit + 1) :=
      Nat.pow_le_pow_left (Nat.le_succ _) _
    have hexponent : (h.tree.entries.length + 2) ^ (FileTree.linkLimit + 1) ≤
        (h.tree.entries.length + 2) ^ (FileTree.linkLimit + 2) :=
      Nat.pow_le_pow_right (Nat.succ_pos _) (Nat.le_succ _)
    have hpos : 0 < (h.tree.entries.length + 1) ^ (FileTree.linkLimit + 1) :=
      Nat.pow_pos (Nat.succ_pos _)
    omega
  · intro p hp content hread
    obtain ⟨ns, rfl, hns⟩ := hp.exists_names
    obtain ⟨hne, hleads⟩ := leads_of_read hns hread
    exact Finset.mem_image.2 ⟨ns, hF ns hne hns hleads, rfl⟩

end Host

/-! ## Using files up -/

section

variable {F : Finset Path} {more seen : List Path} {p : Path}

/-- No more files are left once more have been seen. -/
theorem filter_append_subset (F : Finset Path) (more seen : List Path) :
    F.filter (· ∉ more ++ seen) ⊆ F.filter (· ∉ seen) := by
  intro q hq
  obtain ⟨hqF, hq⟩ := Finset.mem_filter.1 hq
  exact Finset.mem_filter.2 ⟨hqF, fun hseen => hq (List.mem_append_right _ hseen)⟩

/-- **A new file uses one of the files up.** -/
theorem card_filter_append_lt (hp : p ∈ F) (hnew : p ∉ seen) (hmore : p ∈ more) :
    (F.filter (· ∉ more ++ seen)).card < (F.filter (· ∉ seen)).card := by
  refine Finset.card_lt_card ((Finset.ssubset_iff_of_subset (filter_append_subset F more seen)).2
    ⟨p, Finset.mem_filter.2 ⟨hp, hnew⟩, fun hp' => ?_⟩)
  exact (Finset.mem_filter.1 hp').2 (List.mem_append_left _ hmore)

end

end CompileCommands
