import MangOH.DataHub.TreeNames

/-! Paths, and the entries that they lead to. -/
namespace MangOH.DataHub

open Outcome

variable {P : Platform} {h : Hub} {e e' c base : EntryRef} {entry : Entry} {name path : CString}
  {names : List CString}

/-- What lookups rely on: a tree with legal names and a root. -/
structure Searchable (P : Platform) (h : Hub) : Prop where
  directory : h.directory.Ok (LegalName P)
  root : h.directory.IsRoot rootPtr

theorem isRoot_boot (env : Environment) (files : List (CString × Bytes)) :
    (boot env files).directory.IsRoot rootPtr :=
  ⟨_, rfl, rfl⟩

theorem reachable_searchable (hr : Reachable P h) : Searchable P h := by
  refine ⟨reachable_directory hr, ?_⟩
  exact reachable_induction (fun _ => True) (Q := fun h => h.directory.IsRoot rootPtr)
    isRoot_boot (fun _ _ hwf hm _ hd => hd.steps (directory_micro hwf hm)) hr fun _ _ => trivial

theorem entry_of_node (he : h.directory e ≠ none) : ∃ entry, h.entries e = some entry := by
  cases hent : h.entries e with
  | none => simp [Hub.directory, hent] at he
  | some entry => exact ⟨entry, rfl⟩

theorem Searchable.exists_root (hs : Searchable P h) : h.directory rootPtr ≠ none := by
  obtain ⟨n, hn, _⟩ := hs.root
  rw [hn]
  simp

/-! ### One name -/

theorem search_spec (hd : h.directory.Ok (LegalName P)) (he : h.entries e = some entry)
    (list : List EntryRef) (hsub : ∀ c ∈ list, c ∈ entry.childList) :
    ∃ found, resTreeFindChild.search h name list = .ok found ∧
      (∀ c, found = some c → h.directory.Leads e [name] c) ∧
      (found = none → ∀ c ∈ list, ∀ child, h.entries c = some child → child.name ≠ name) := by
  induction list with
  | nil => exact ⟨none, rfl, by simp, by simp⟩
  | cons a rest ih =>
    have ha := hsub a List.mem_cons_self
    obtain ⟨m, hm, _⟩ := hd.child e _ a (directory_of_entry he) ha
    obtain ⟨child, hchild, rfl⟩ := Option.map_eq_some_iff.mp hm
    unfold resTreeFindChild.search
    rw [getEntry_ok.mpr hchild, ok_bind]
    by_cases hname : child.name = name
    · rw [if_pos hname]
      refine ⟨some a, rfl, ?_, by simp⟩
      rintro _ ⟨⟩
      exact .child (directory_of_entry he) ha hm hname (.here _)
    · rw [if_neg hname]
      obtain ⟨found, hfound, hsome, hnone⟩ := ih fun c hc => hsub c (List.mem_cons_of_mem _ hc)
      refine ⟨found, hfound, hsome, fun hn c hc child' hchild' => ?_⟩
      rcases List.mem_cons.mp hc with rfl | hc
      · cases hchild.symm.trans hchild'
        exact hname
      · exact hnone hn c hc child' hchild'

/-- `resTree_FindChild` finds the child of that name. -/
theorem findChild_spec (hd : h.directory.Ok (LegalName P)) (he : h.directory e ≠ none)
    (name : CString) : ∃ found, resTreeFindChild h e name = .ok found ∧
      ∀ c, found = some c ↔ h.directory.Leads e [name] c := by
  obtain ⟨entry, he⟩ := entry_of_node he
  obtain ⟨found, hfound, hsome, hnone⟩ := search_spec hd he entry.childList
    fun _ hc => hc
  refine ⟨found, ?_, fun c => ⟨hsome c, fun hl => ?_⟩⟩
  · rw [resTreeFindChild, getEntry_ok.mpr he, ok_bind, hfound]
  · cases hf : found with
    | some c' => rw [hd.leads_unique (hsome c' hf) hl]
    | none =>
      cases hl with
      | child hn hc hm hname _ =>
        cases (directory_of_entry he).symm.trans hn
        obtain ⟨child, hchild, rfl⟩ := Option.map_eq_some_iff.mp hm
        exact absurd hname (hnone hf _ hc child hchild)

/-! ### Lists of names and paths -/

/-- The loop of `GoToEntry` finds what the names lead to. -/
theorem walk_spec (hd : h.directory.Ok (LegalName P)) (names : List CString)
    (he : h.directory e ≠ none) : ∃ found, walk P false names h e = .ok (h, found) ∧
      ∀ x, found = some x ↔ h.directory.Leads e names x := by
  induction names generalizing e with
  | nil =>
    refine ⟨some e, rfl, fun x => ⟨?_, fun hl => ?_⟩⟩
    · rintro ⟨⟩
      exact .here e
    · cases hl
      rfl
  | cons name names ih =>
    unfold walk
    split
    · next hillegal =>
      refine ⟨none, rfl, fun x => ⟨by simp, fun hl => ?_⟩⟩
      have hlegal := hd.leads_legal hl name List.mem_cons_self
      rcases hillegal with hempty | hlong
      · exact absurd hempty hlegal.1
      · exact absurd hlegal.2.1 (Nat.not_lt_of_le hlong)
    · obtain ⟨found, hfound, hchild⟩ := findChild_spec hd he name
      rw [hfound, ok_bind]
      cases found with
      | some c =>
        have hc := (hchild c).mp rfl
        obtain ⟨found', hwalk, hfound'⟩ := ih (hc.exists_node he)
        refine ⟨found', hwalk, fun x => (hfound' x).trans ⟨fun hl => ?_, fun hl => ?_⟩⟩
        · exact Directory.leads_cons.mpr ⟨c, hc, hl⟩
        · obtain ⟨c', hc', hl⟩ := Directory.leads_cons.mp hl
          cases hd.leads_unique hc hc'
          exact hl
      | none =>
        refine ⟨none, rfl, fun x => ⟨by simp, fun hl => ?_⟩⟩
        obtain ⟨c, hc, _⟩ := Directory.leads_cons.mp hl
        cases (hchild c).mpr hc

theorem mem_splitPath {a : UInt8} (ha : a ∈ path) (hslash : a ≠ 0x2f) :
    ∃ name ∈ splitPath path, a ∈ name := by
  induction path with
  | nil => cases ha
  | cons b rest ih =>
    unfold splitPath
    split
    · next hb =>
      have hrest : a ∈ rest := by
        rcases List.mem_cons.mp ha with rfl | hmem
        · exact absurd hb hslash
        · exact hmem
      obtain ⟨name, hname, hmem⟩ := ih hrest
      exact ⟨name, List.mem_cons_of_mem _ hname, hmem⟩
    · split
      · next first names hsplit =>
        rcases List.mem_cons.mp ha with rfl | hmem
        · exact ⟨_, List.mem_cons_self, List.mem_cons_self⟩
        · obtain ⟨name, hname, hmem⟩ := ih hmem
          rw [hsplit] at hname
          rcases List.mem_cons.mp hname with rfl | hname
          · exact ⟨_, List.mem_cons_self, List.mem_cons_of_mem _ hmem⟩
          · exact ⟨name, List.mem_cons_of_mem _ hname, hmem⟩
      · next hsplit =>
        rcases List.mem_cons.mp ha with rfl | hmem
        · exact ⟨_, List.mem_cons_self, List.mem_cons_self⟩
        · obtain ⟨name, hname, _⟩ := ih hmem
          rw [hsplit] at hname
          cases hname

theorem mem_pathElements {a : UInt8} (ha : a ∈ path) (hslash : a ≠ 0x2f) :
    ∃ name ∈ pathElements path, a ∈ name := by
  cases path with
  | nil => cases ha
  | cons b rest =>
    refine mem_splitPath ?_ hslash
    split
    · next hb =>
      rcases List.mem_cons.mp ha with rfl | hmem
      · exact absurd hb hslash
      · exact hmem
    · exact ha

/-- `resTree_FindEntry` finds what the names in the path lead to. -/
theorem findEntry_spec (hd : h.directory.Ok (LegalName P)) (he : h.directory base ≠ none)
    (path : CString) : ∃ found, resTreeFindEntry P h base path = .ok found ∧
      ∀ x, found = some x ↔ h.directory.Leads base (pathElements path) x := by
  unfold resTreeFindEntry goToEntry
  split
  · next hillegal =>
    refine ⟨none, rfl, fun x => ⟨by simp, fun hl => ?_⟩⟩
    obtain ⟨a, ha, hbad⟩ := List.any_eq_true.mp hillegal
    have hslash : a ≠ 0x2f := by
      rintro rfl
      revert hbad
      decide
    obtain ⟨name, hname, hmem⟩ := mem_pathElements ha hslash
    have hlegal := (hd.leads_legal hl name hname).2.2.2 a hmem
    rw [hbad] at hlegal
    cases hlegal
  · obtain ⟨found, hwalk, hfound⟩ := walk_spec hd (pathElements path) he
    exact ⟨found, by rw [hwalk]; rfl, hfound⟩

end MangOH.DataHub
