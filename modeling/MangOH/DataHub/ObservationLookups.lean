import MangOH.DataHub.Paths
import MangOH.DataHub.Scenario

/-! The three ways in which the services look up Observations, and the paths on which they agree. -/
namespace MangOH.DataHub

open Outcome

variable {P : Platform} {h : Hub} {e ns : EntryRef} {path rest : CString}
  {found : Option EntryRef}

/-! ### The entry that a path denotes -/

/-- The path is absolute and leads below `/obs`. -/
def underObs (path : CString) : Bool := (ascii "/obs/").isPrefixOf path

/-- The entry that a path stands for: an absolute one from the root, another one from `/obs`. -/
def Denotes (h : Hub) (path : CString) (e : EntryRef) : Prop :=
  if underObs path then h.directory.Leads rootPtr (pathElements path) e
  else path.head? ≠ some 0x2f ∧ h.directory.Leads rootPtr (ascii "obs" :: pathElements path) e

def Hub.IsObservation (h : Hub) (e : EntryRef) : Prop :=
  ∃ entry, h.entries e = some entry ∧ entry.type = .observation

/-- The entry that `admin_DeleteObs` deletes. -/
def deleteTarget (P : Platform) (h : Hub) (path : CString) : Except Fault (Option EntryRef) := do
  match ← resTreeFindEntry P h rootPtr (ascii "obs") with
  | none => pure none
  | some obsNamespace => resTreeFindEntry P h obsNamespace path

/-- What `admin_DeleteObs` does with it. -/
def deleteFound (P : Platform) (fuel : Nat) (h : Hub) : Option EntryRef → Except Fault Hub
  | none => pure h
  | some e => resTreeDeleteObservation P fuel h e

theorem adminDeleteObs_eq (fuel : Nat) (h : Hub) (path : CString) :
    adminDeleteObs P fuel h path = deleteTarget P h path >>= deleteFound P fuel h := by
  unfold adminDeleteObs deleteTarget
  rw [bind_assoc]
  congr 1
  funext found
  cases found with
  | none => rfl
  | some ns =>
    show _ = resTreeFindEntry P h ns path >>= _
    refine congrArg (resTreeFindEntry P h ns path >>= ·) ?_
    funext found
    cases found <;> rfl

/-- All of them find the Observation that the path denotes, or none if it denotes none, and nothing
changes then. -/
structure LookupsAgree (P : Platform) (h : Hub) (path : CString) (found : Option EntryRef) :
    Prop where
  denoted : ∀ e, found = some e ↔ Denotes h path e ∧ h.IsObservation e
  admin : adminFindObservation P h path = .ok (h, found)
  query : queryFindObservation P h path = .ok found
  target : deleteTarget P h path = .ok found
  delete : ∀ fuel, adminDeleteObs P fuel h path = deleteFound P fuel h found

/-- The path leads from `/obs` to an entry. -/
def FoundUnderObs (h : Hub) (path : CString) (e : EntryRef) : Prop :=
  ∃ ns, h.directory.Leads rootPtr [ascii "obs"] ns ∧ h.directory.Leads ns (pathElements path) e

/-- The lookups agree on the relative paths of Observations, on absolute paths below `/obs` of other
entries, and on other absolute paths, unless the absolute path leads somewhere from `/obs` too. -/
inductive LooksUpWell (h : Hub) (path : CString) : Prop
  | relative {e : EntryRef} (hp : path.head? ≠ some 0x2f) (he : FoundUnderObs h path e)
      (ho : h.IsObservation e)
  | elsewhere (hp : obsRelative path = none) (hno : ∀ e, ¬ FoundUnderObs h path e)
  | absolute {rest : CString} {e : EntryRef} (hp : path = ascii "/obs/" ++ rest)
      (he : FoundUnderObs h rest e) (ho : ¬ h.IsObservation e) (hno : ∀ e, ¬ FoundUnderObs h path e)

/-! ### Paths -/

theorem pathElements_obs : pathElements (ascii "obs") = [ascii "obs"] := by decide

theorem pathElements_underObs (rest : CString) :
    pathElements (ascii "/obs/" ++ rest) = ascii "obs" :: splitPath rest := by
  show splitPath (0x6f :: 0x62 :: 0x73 :: 0x2f :: rest) = [0x6f, 0x62, 0x73] :: splitPath rest
  simp [splitPath]

/-- A path that is relative to `/obs` is relative or below it. -/
theorem obsRelative_cases (path : CString) :
    (obsRelative path = none ∧ underObs path = false ∧ path.head? = some 0x2f) ∨
    (obsRelative path = some path ∧ underObs path = false ∧ path.head? ≠ some 0x2f) ∨
    ∃ rest, path = ascii "/obs/" ++ rest ∧ underObs path = true ∧ obsRelative path = some rest := by
  unfold obsRelative underObs
  split
  · next hbase =>
    obtain ⟨rest, rfl⟩ := List.isPrefixOf_iff_prefix.mp hbase
    exact .inr (.inr ⟨rest, rfl, hbase, rfl⟩)
  · next hbase =>
    split
    · next hslash => exact .inl ⟨rfl, Bool.eq_false_of_not_eq_true hbase, hslash⟩
    · next hslash => exact .inr (.inl ⟨rfl, Bool.eq_false_of_not_eq_true hbase, hslash⟩)

/-! ### What the lookups find -/

/-- `/obs` is there, or `GetObsNamespace` creates it or fails. -/
theorem obsNamespace_cases (hs : Searchable P h) :
    (∃ ns, h.directory.Leads rootPtr [ascii "obs"] ns ∧
      resTreeFindEntry P h rootPtr (ascii "obs") = .ok (some ns) ∧
      resTreeGetEntry P h rootPtr (ascii "obs") = .ok (h, some ns)) ∨
    ((∀ ns, ¬ h.directory.Leads rootPtr [ascii "obs"] ns) ∧
      resTreeFindEntry P h rootPtr (ascii "obs") = .ok none ∧
      ∀ ns, resTreeGetEntry P h rootPtr (ascii "obs") ≠ .ok (h, some ns)) := by
  obtain ⟨found, hfind, hfound⟩ := findEntry_spec hs.directory hs.exists_root (ascii "obs")
  rw [pathElements_obs] at hfound
  have hget : resTreeGetEntry P h rootPtr (ascii "obs") =
      walk P true [ascii "obs"] h rootPtr := by
    rw [resTreeGetEntry, goToEntry, pathElements_obs]
    exact if_neg (by decide)
  rw [hget]
  unfold walk
  obtain ⟨child, hchild, hleads⟩ := findChild_spec hs.directory hs.exists_root (ascii "obs")
  rw [hchild, ok_bind]
  cases found with
  | some ns =>
    have hns := (hfound ns).mp rfl
    have hlegal := hs.directory.leads_legal hns (ascii "obs") List.mem_cons_self
    refine .inl ⟨ns, hns, hfind, ?_⟩
    rw [if_neg (not_or.mpr ⟨hlegal.1, Nat.not_le_of_lt hlegal.2.1⟩), (hleads ns).mpr hns]
    rfl
  | none =>
    have hno : ∀ ns, ¬ h.directory.Leads rootPtr [ascii "obs"] ns := fun ns hl => by
      cases (hfound ns).mpr hl
    refine .inr ⟨hno, hfind, fun ns heq => ?_⟩
    split at heq
    · cases heq
    · cases child with
      | some c => exact hno c ((hleads c).mp rfl)
      | none =>
        obtain ⟨⟨h', c⟩, hadd, heq⟩ := bind_eq_ok.mp heq
        cases heq
        obtain ⟨_, _, _, hh⟩ := (addChild_frame h rootPtr (ascii "obs")).result hadd
        have hnext : h.nextEntry = h.nextEntry + 1 := congrArg Hub.nextEntry hh
        exact absurd hnext (Nat.ne_of_lt (Nat.lt_succ_self _))

theorem foundUnderObs_unique (hs : Searchable P h) {e' : EntryRef}
    (he : FoundUnderObs h path e) (he' : FoundUnderObs h path e') : e = e' := by
  obtain ⟨ns, hns, hl⟩ := he
  obtain ⟨ns', hns', hl'⟩ := he'
  cases hs.directory.leads_unique hns hns'
  exact hs.directory.leads_unique hl hl'

/-- What there is to find from `/obs`. -/
theorem findUnderObs_spec (hs : Searchable P h)
    (hns : h.directory.Leads rootPtr [ascii "obs"] ns) (path : CString) :
    ∃ found, resTreeFindEntry P h ns path = .ok found ∧
      ∀ e, found = some e ↔ FoundUnderObs h path e := by
  obtain ⟨found, hfind, hfound⟩ :=
    findEntry_spec hs.directory (hns.exists_node hs.exists_root) path
  refine ⟨found, hfind, fun e => (hfound e).trans ⟨fun hl => ⟨ns, hns, hl⟩, ?_⟩⟩
  rintro ⟨ns', hns', hl⟩
  cases hs.directory.leads_unique hns hns'
  exact hl

theorem deleteTarget_spec (hs : Searchable P h) (path : CString) :
    ∃ found, deleteTarget P h path = .ok found ∧
      ∀ e, found = some e ↔ FoundUnderObs h path e := by
  unfold deleteTarget
  rcases obsNamespace_cases hs with ⟨ns, hns, hfind, _⟩ | ⟨hno, hfind, _⟩
  · rw [hfind, ok_bind]
    exact findUnderObs_spec hs hns path
  · rw [hfind, ok_bind]
    refine ⟨none, rfl, fun e => ⟨by simp, ?_⟩⟩
    rintro ⟨ns, hns, _⟩
    exact absurd hns (hno ns)

theorem exists_entry_of_found (hs : Searchable P h) (he : FoundUnderObs h path e) :
    ∃ entry, h.entries e = some entry := by
  obtain ⟨ns, hns, hl⟩ := he
  exact entry_of_node (hl.exists_node (hns.exists_node hs.exists_root))

/-- The lookup of the Admin service ends well if there is something to find from `/obs`. -/
theorem adminFind_spec (hs : Searchable P h) (hrel : obsRelative path = some rest) :
    adminFindObservation P h path = .ok (h, found) ↔ ∃ e entry, FoundUnderObs h rest e ∧
      h.entries e = some entry ∧ found = if entry.type = .observation then some e else none := by
  unfold adminFindObservation
  rw [hrel]
  rcases obsNamespace_cases hs with ⟨ns, hns, _, hget⟩ | ⟨hno, _, hget⟩
  · obtain ⟨target, hfind, htarget⟩ := findUnderObs_spec hs hns rest
    dsimp only
    rw [hget, ok_bind]
    dsimp only
    rw [hfind, ok_bind]
    cases target with
    | none =>
      refine ⟨by simp, ?_⟩
      rintro ⟨e, entry, he, _⟩
      cases (htarget e).mpr he
    | some e =>
      have he := (htarget e).mp rfl
      obtain ⟨entry, hentry⟩ := exists_entry_of_found hs he
      dsimp only
      rw [getEntry_ok.mpr hentry, ok_bind]
      constructor
      · intro heq
        cases heq
        exact ⟨e, entry, he, hentry, rfl⟩
      · rintro ⟨e', entry', he', hentry', rfl⟩
        cases foundUnderObs_unique hs he he'
        cases hentry.symm.trans hentry'
        rfl
  · refine ⟨fun heq => ?_, ?_⟩
    · obtain ⟨⟨h', ns⟩, hgot, heq⟩ := bind_eq_ok.mp heq
      cases ns with
      | none => cases heq
      | some ns =>
        obtain ⟨target, _, heq⟩ := bind_eq_ok.mp heq
        cases target with
        | none => cases heq
        | some e =>
          obtain ⟨entry, _, heq⟩ := bind_eq_ok.mp heq
          cases heq
          exact absurd hgot (hget ns)
    · rintro ⟨e, entry, ⟨ns, hns, _⟩, _⟩
      exact absurd hns (hno ns)

theorem not_denotes_elsewhere (hrel : obsRelative path = none) : ¬ Denotes h path e := by
  rcases obsRelative_cases path with ⟨_, hu, hslash⟩ | ⟨hrel', _, _⟩ | ⟨_, _, _, hrel'⟩
  · unfold Denotes
    rw [if_neg (by rw [hu]; exact Bool.false_ne_true)]
    exact fun hd => hd.1 hslash
  · cases hrel.symm.trans hrel'
  · cases hrel.symm.trans hrel'

theorem obsRelative_of_relative (hp : path.head? ≠ some 0x2f) :
    obsRelative path = some path ∧ underObs path = false := by
  rcases obsRelative_cases path with ⟨_, _, hslash⟩ | ⟨hrel, hu, _⟩ | ⟨rest, rfl, _, _⟩
  · exact absurd hslash hp
  · exact ⟨hrel, hu⟩
  · exact absurd rfl hp

theorem denotes_relative (hp : path.head? ≠ some 0x2f) :
    Denotes h path e ↔ FoundUnderObs h path e := by
  unfold Denotes
  rw [(obsRelative_of_relative hp).2, if_neg Bool.false_ne_true, Directory.leads_cons]
  exact ⟨fun hd => hd.2, fun hd => ⟨hp, hd⟩⟩

theorem denotes_absolute :
    Denotes h (ascii "/obs/" ++ rest) e ↔
      ∃ ns, h.directory.Leads rootPtr [ascii "obs"] ns ∧
        h.directory.Leads ns (splitPath rest) e := by
  have hu : underObs (ascii "/obs/" ++ rest) = true := by simp [underObs]
  unfold Denotes
  rw [if_pos hu, pathElements_underObs, Directory.leads_cons]

theorem queryLookup_spec (hs : Searchable P h) (path : CString) :
    ∃ found, queryFindObservation.lookup P h path = .ok found ∧
      ∀ e, found = some e ↔ Denotes h path e := by
  unfold queryFindObservation.lookup
  rcases obsRelative_cases path with ⟨hrel, hu, hslash⟩ | ⟨_, hu, hslash⟩ | ⟨rest, _, hu, _⟩
  · rw [show (ascii "/obs/").isPrefixOf path = false from hu, if_neg Bool.false_ne_true,
      if_pos hslash]
    exact ⟨none, rfl, fun e => ⟨by simp, fun hd => absurd hd (not_denotes_elsewhere hrel)⟩⟩
  · rw [show (ascii "/obs/").isPrefixOf path = false from hu, if_neg Bool.false_ne_true,
      if_neg hslash]
    obtain ⟨found, hfind, hfound⟩ := deleteTarget_spec hs path
    exact ⟨found, hfind, fun e => (hfound e).trans (denotes_relative hslash).symm⟩
  · rw [show (ascii "/obs/").isPrefixOf path = true from hu, if_pos rfl]
    unfold Denotes
    rw [hu]
    simp only [if_true]
    exact findEntry_spec hs.directory hs.exists_root path

theorem Denotes.exists_entry (hs : Searchable P h) (hd : Denotes h path e) :
    ∃ entry, h.entries e = some entry := by
  refine entry_of_node ?_
  unfold Denotes at hd
  split at hd
  · exact hd.exists_node hs.exists_root
  · exact hd.2.exists_node hs.exists_root

/-- The lookup of the Query service is always right. -/
theorem queryFind_spec (hs : Searchable P h) (path : CString) :
    ∃ found, queryFindObservation P h path = .ok found ∧
      ∀ e, found = some e ↔ Denotes h path e ∧ h.IsObservation e := by
  obtain ⟨target, hlookup, htarget⟩ := queryLookup_spec hs path
  unfold queryFindObservation
  rw [hlookup, ok_bind]
  cases target with
  | none =>
    refine ⟨none, rfl, fun e => ⟨by simp, fun hd => ?_⟩⟩
    cases (htarget e).mpr hd.1
  | some e =>
    have he := (htarget e).mp rfl
    obtain ⟨entry, hentry⟩ := he.exists_entry hs
    dsimp only
    rw [getEntry_ok.mpr hentry, ok_bind]
    refine ⟨_, rfl, fun e' => ⟨fun heq => ?_, ?_⟩⟩
    · split at heq
      · next ht =>
        cases heq
        exact ⟨he, entry, hentry, ht⟩
      · cases heq
    · rintro ⟨hd, entry', hentry', ht⟩
      cases (htarget e').mpr hd
      cases hentry.symm.trans hentry'
      exact if_pos ht

/-! ### Where they agree -/

/-- Where an empty name is not skipped, the path leads to one entry by both ways. -/
theorem foundUnderObs_of_denotes (hs : Searchable P h)
    (hd : Denotes h (ascii "/obs/" ++ rest) e) : FoundUnderObs h rest e := by
  obtain ⟨ns, hns, hl⟩ := denotes_absolute.mp hd
  have hempty : [] ∉ splitPath rest := fun hmem => (hs.directory.leads_legal hl [] hmem).1 rfl
  refine ⟨ns, hns, ?_⟩
  cases rest with
  | nil => simp [splitPath] at hempty
  | cons a rest =>
    have ha : a ≠ 0x2f := by
      rintro rfl
      simp [splitPath] at hempty
    rw [pathElements, if_neg ha]
    exact hl

/-- An entry does not have the same path from `/obs` and from an entry below it. -/
theorem not_found_both_ways (hs : Searchable P h)
    (hd : Denotes h (ascii "/obs/" ++ rest) e) :
    ¬ FoundUnderObs h (ascii "/obs/" ++ rest) e := by
  rintro ⟨ns, hns, hl⟩
  rw [pathElements_underObs] at hl
  obtain ⟨ns', hns', hl'⟩ := denotes_absolute.mp hd
  cases hs.directory.leads_unique hns hns'
  obtain ⟨c, hc, hl⟩ := Directory.leads_cons.mp hl
  cases hs.directory.leads_start hl hl'
  -- `/obs` would be its own child, so it would be the root
  cases hc with
  | child hn hmem hm hname hhere =>
    cases hhere
    obtain ⟨m, hm₀, hparent, _⟩ := hs.directory.child _ _ _ hn hmem
    cases hns with
    | child hn' hmem' hm' hname' hhere' =>
      cases hhere'
      obtain ⟨m', hm₁, hparent', _⟩ := hs.directory.child _ _ _ hn' hmem'
      cases hm₀.symm.trans hm₁
      obtain ⟨n, hroot, hnone⟩ := hs.root
      cases hparent.symm.trans hparent'
      cases hm₀.symm.trans hroot
      cases hparent.symm.trans hnone

theorem looksUpWell_of_agree (hs : Searchable P h) (ha : LookupsAgree P h path found) :
    LooksUpWell h path := by
  obtain ⟨target, htarget, hfound⟩ := deleteTarget_spec hs path
  cases htarget.symm.trans ha.target
  rcases obsRelative_cases path with ⟨hrel, hu, hslash⟩ | ⟨hrel, hu, hslash⟩ |
    ⟨rest, rfl, hu, hrel⟩
  · refine .elsewhere hrel fun e he => ?_
    exact not_denotes_elsewhere hrel ((ha.denoted e).mp ((hfound e).mpr he)).1
  · obtain ⟨e, _, he, _⟩ := (adminFind_spec hs hrel).mp ha.admin
    exact .relative hslash he ((ha.denoted e).mp ((hfound e).mpr he)).2
  · obtain ⟨e, entry, he, hentry, heq⟩ := (adminFind_spec hs hrel).mp ha.admin
    by_cases ht : entry.type = .observation
    · rw [if_pos ht] at heq
      exact absurd ((hfound e).mp heq) (not_found_both_ways hs ((ha.denoted e).mp heq).1)
    · rw [if_neg ht] at heq
      refine .absolute rfl he ?_ fun e' he' => ?_
      · rintro ⟨entry', hentry', ht'⟩
        cases hentry.symm.trans hentry'
        exact ht ht'
      · cases heq.symm.trans ((hfound e').mpr he')

/-- If nothing can be found from `/obs`, the deletion finds nothing. -/
theorem deleteTarget_none (hs : Searchable P h) (hno : ∀ e, ¬ FoundUnderObs h path e) :
    deleteTarget P h path = .ok none := by
  obtain ⟨target, htarget, hfound⟩ := deleteTarget_spec hs path
  cases target with
  | none => exact htarget
  | some e => exact absurd ((hfound e).mp rfl) (hno e)

theorem agree_of_looksUpWell (hs : Searchable P h) (hgood : LooksUpWell h path) :
    ∃ found, LookupsAgree P h path found := by
  obtain ⟨found, hquery, hdenoted⟩ := queryFind_spec hs path
  refine ⟨found, ?_⟩
  have hagree : deleteTarget P h path = .ok found →
      adminFindObservation P h path = .ok (h, found) → LookupsAgree P h path found := by
    intro htarget hadmin
    refine ⟨hdenoted, hadmin, hquery, htarget, fun fuel => ?_⟩
    rw [adminDeleteObs_eq, htarget, ok_bind]
  have hnone : (∀ e, Denotes h path e → ¬ h.IsObservation e) → found = none := by
    intro hno
    cases hf : found with
    | none => rfl
    | some e => exact absurd ((hdenoted e).mp hf).2 (hno e ((hdenoted e).mp hf).1)
  cases hgood with
  | @relative e hp he ho =>
    have hsome : found = some e := (hdenoted e).mpr ⟨(denotes_relative hp).mpr he, ho⟩
    obtain ⟨target, htarget, hfound⟩ := deleteTarget_spec hs path
    obtain ⟨entry, hentry, ht⟩ := ho
    refine hagree ?_ ((adminFind_spec hs (obsRelative_of_relative hp).1).mpr
      ⟨e, entry, he, hentry, by rw [hsome, if_pos ht]⟩)
    rw [htarget, (hfound e).mpr he, hsome]
  | elsewhere hrel hno =>
    rw [hnone fun e hd => absurd hd (not_denotes_elsewhere hrel)] at hagree ⊢
    refine hagree (deleteTarget_none hs hno) ?_
    rw [adminFindObservation, hrel]
    rfl
  | @absolute rest e hp he ho hno =>
    have hother : ∀ e, Denotes h path e → ¬ h.IsObservation e := by
      intro e' hd
      rw [hp] at hd
      cases foundUnderObs_unique hs he (foundUnderObs_of_denotes hs hd)
      exact ho
    rw [hnone hother] at hagree ⊢
    have hrel : obsRelative path = some rest := by
      rw [hp, obsRelative, if_pos (by simp)]
      rfl
    obtain ⟨entry, hentry⟩ := exists_entry_of_found hs he
    refine hagree (deleteTarget_none hs hno) ((adminFind_spec hs hrel).mpr
      ⟨e, entry, he, hentry, ?_⟩)
    rw [if_neg fun ht => ho ⟨entry, hentry, ht⟩]

/-- The lookups agree exactly on the paths that `LooksUpWell` describes. -/
theorem lookups_agree_iff (hr : Reachable P h) (path : CString) :
    (∃ found, LookupsAgree P h path found) ↔ LooksUpWell h path :=
  ⟨fun h => h.elim fun _ ha => looksUpWell_of_agree (reachable_searchable hr) ha,
    agree_of_looksUpWell (reachable_searchable hr)⟩

/-- The Query service finds the Observation. -/
def queryFinds (path : CString) (h : Hub) : Bool :=
  match queryFindObservation smallPlatform h path with
  | .ok (some _) => true
  | _ => false

theorem lookups_agree_iff_created : ∃ h e, Reachable smallPlatform h ∧
    LookupsAgree smallPlatform h (ascii "o") (some e) := by
  have hrun : smallRunEnds [.adminCreateObs (ascii "o")] (queryFinds (ascii "o")) = true := by
    decide +kernel
  obtain ⟨h, hr, hp⟩ := exists_of_smallRunEnds hrun
  obtain ⟨found, hquery, hdenoted⟩ := queryFind_spec (reachable_searchable hr) (ascii "o")
  rw [queryFinds, hquery] at hp
  cases found with
  | none => cases hp
  | some e =>
    obtain ⟨hden, hobs⟩ := (hdenoted e).mp rfl
    have hrel : (ascii "o").head? ≠ some 0x2f := by decide
    obtain ⟨found, ha⟩ := (lookups_agree_iff hr _).mpr
      (.relative hrel ((denotes_relative hrel).mp hden) hobs)
    obtain rfl : found = some e := (ha.denoted e).mpr ⟨hden, hobs⟩
    exact ⟨h, e, hr, ha⟩

/-- Three lookups: of nothing by the Admin service, and of an Observation by its absolute path. -/
def badLookups (h : Hub) : Bool :=
  (match adminFindObservation smallPlatform h (ascii "x") with
    | .error .nullDeref => true
    | _ => false) &&
  (match queryFindObservation smallPlatform h (ascii "/obs/o") with
    | .ok (some _) => true
    | _ => false) &&
  match deleteTarget smallPlatform h (ascii "/obs/o") with
    | .ok none => true
    | _ => false

/-- The lookup of the Admin service dereferences NULL where nothing is found, and the deletion does
not find an Observation by its absolute path. -/
theorem lookups_agree_fails : ∃ h, Reachable smallPlatform h ∧
    (¬ ∃ found, LookupsAgree smallPlatform h (ascii "x") found) ∧
    ¬ ∃ found, LookupsAgree smallPlatform h (ascii "/obs/o") found := by
  have hrun : smallRunEnds [.adminCreateObs (ascii "o")] badLookups = true := by decide +kernel
  obtain ⟨h, hr, hp⟩ := exists_of_smallRunEnds hrun
  rw [badLookups, Bool.and_eq_true, Bool.and_eq_true] at hp
  obtain ⟨⟨hnull, hquery⟩, htarget⟩ := hp
  refine ⟨h, hr, ?_, ?_⟩
  · rintro ⟨found, ha⟩
    rw [ha.admin] at hnull
    cases hnull
  · rintro ⟨found, ha⟩
    rw [ha.query] at hquery
    rw [ha.target] at htarget
    cases found <;> contradiction

end MangOH.DataHub
