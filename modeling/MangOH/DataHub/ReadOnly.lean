import MangOH.DataHub.GetterReads
import MangOH.DataHub.RouteLinks

/-! Which getters are read-only: those that find nothing missing on the way. -/
namespace MangOH.DataHub

open Outcome

variable {P : Platform} {b h h₁ h' : Hub} {base e ns : EntryRef} {path rest : CString}
  {names : List CString} {session fuel : Nat} {found : Option EntryRef} {α : Type}

/-- Nothing is changed or logged. The namespace that is saved with a client's session is not part
of the hub. -/
def SameState (h h' : Hub) : Prop := h' = { h with sessions := h'.sessions }

/-- The getter ends and changes nothing. That a value is misread as one of another type is another
matter. -/
def ReadOnly (P : Platform) (fuel : Nat) (h : Hub) (g : Getter) : Prop :=
  Sat (· ≠ .typeConfusion) (getterStep P fuel h g) (SameState h)

/-! ### The condition -/

def Malformed (P : Platform) (name : CString) : Prop :=
  name = [] ∨ hubMaxEntryNameBytes P ≤ name.length

/-- The entries that the loop of `GoToEntry` passes are there. -/
def AllThere (P : Platform) (h : Hub) : List CString → EntryRef → Prop
  | [], _ => True
  | name :: names, e =>
    Malformed P name ∨ ∃ c, h.directory.Leads e [name] c ∧ AllThere P h names c

def PathThere (P : Platform) (h : Hub) (base : EntryRef) (path : CString) : Prop :=
  path.any isIllegal = true ∨ AllThere P h (pathElements path) base

/-- An entry that `GetObservation` leaves as it is. -/
def Hub.Settled (h : Hub) (e : EntryRef) : Prop :=
  ∃ entry, h.entries e = some entry ∧ entry.type ≠ .nameSpace ∧ entry.type ≠ .placeholder

/-- `FindObservation` finds an entry at the path. -/
def FindHarmless (h : Hub) (path : CString) : Prop :=
  ∀ rest, obsRelative path = some rest → ∃ e, FoundUnderObs h rest e

/-- `GetObservation` finds an Observation, an Input or an Output at the path, or its malformed
name. -/
def GetHarmless (P : Platform) (h : Hub) (path : CString) : Prop :=
  ∀ rest, obsRelative path = some rest → ∃ ns, h.directory.Leads rootPtr [ascii "obs"] ns ∧
    PathThere P h ns rest ∧ ∀ e, h.directory.Leads ns (pathElements rest) e → h.Settled e

/-- The path is refused before the entry from which it starts is looked at. -/
def RefusedAtOnce (P : Platform) (path : CString) : Prop :=
  path.any isIllegal = true ∨ ∃ name ∈ (pathElements path).head?, Malformed P name

/-- The namespace of the client is there, and has not been freed if it was saved. -/
def ClientHarmless (P : Platform) (h : Hub) (session : Nat) (path : CString) : Prop :=
  match h.sessions session with
  | some ns => h.directory ns ≠ none ∨ RefusedAtOnce P path
  | none => ∀ appName, P.appName session = some appName →
    ∃ app, h.directory.Leads rootPtr [ascii "app"] app ∧ PathThere P h app appName

def QueryHarmless (P : Platform) (h : Hub) (session : Nat) (path : CString) : Prop :=
  path.head? ≠ some 0x2f → ClientHarmless P h session path

/-- What has to be there for a getter to be read-only. -/
def Getter.Harmless (P : Platform) (h : Hub) : Getter → Prop
  | .adminGetMinPeriod path | .adminGetHighLimit path | .adminGetLowLimit path
  | .adminGetChangeBy path | .adminGetJsonExtraction path _ | .adminGetBufferMaxCount path
  | .adminGetBufferBackupPeriod path => FindHarmless h path
  | .adminGetTransform path => GetHarmless P h path
  | .queryGetDataType session path | .queryGetUnits session path _ | .queryGetTimestamp session path
  | .queryGetBoolean session path | .queryGetNumeric session path | .queryGetString session path _
  | .queryGetJson session path _ | .queryGetJsonExample session path _ =>
    QueryHarmless P h session path
  | _ => True

/-! ### Going to an entry -/

theorem SameState.refl (h : Hub) : SameState h h := rfl

theorem SameState.nextEntry (hsame : SameState h h') : h'.nextEntry = h.nextEntry := by
  rw [hsame]

theorem SameState.log (hsame : SameState h h') : h'.log = h.log := by
  rw [hsame]

theorem walk_there (hd : h.directory.Ok (LegalName P)) (he : h.directory e ≠ none)
    (hall : AllThere P h names e) : walk P true names h e = walk P false names h e := by
  induction names generalizing e with
  | nil => rfl
  | cons name names ih =>
    unfold walk
    split
    · rfl
    · next hgood =>
      obtain hbad | ⟨c, hc, hrest⟩ := hall
      · exact absurd hbad hgood
      · obtain ⟨found, hfind, hfound⟩ := findChild_spec hd he name
        rw [hfind, (hfound c).mpr hc, ok_bind, ok_bind]
        exact ih (hc.exists_node he) hrest

theorem goToEntry_there (hd : h.directory.Ok (LegalName P)) (he : h.directory base ≠ none)
    (hall : PathThere P h base path) :
    resTreeGetEntry P h base path = goToEntry P h base path false := by
  unfold resTreeGetEntry goToEntry
  split
  · rfl
  · next hlegal =>
    obtain hbad | hall := hall
    · exact absurd hbad hlegal
    · exact walk_there hd he hall

theorem walk_grows (doCreate : Bool) (names : List CString) (h : Hub) (e : EntryRef) :
    Returns (walk P doCreate names h e) fun p => h.nextEntry ≤ p.1.nextEntry := by
  induction names generalizing h e with
  | nil => exact Nat.le_refl _
  | cons name names ih =>
    unfold walk
    split
    · exact Nat.le_refl _
    · refine Returns.skip fun found => ?_
      cases found with
      | some c => exact ih h c
      | none =>
        cases doCreate with
        | false => exact Nat.le_refl _
        | true =>
          refine (addChild_frame h e name).bind ?_
          rintro ⟨h₁, c⟩ ⟨_, _, _, hh⟩
          refine (ih h₁ c).mono fun p hp => Nat.le_trans ?_ hp
          rw [show h₁.nextEntry = h.nextEntry + 1 from congrArg Hub.nextEntry hh]
          exact Nat.le_succ _

/-- A walk that creates no entry has passed all entries there. -/
theorem allThere_of_walk (hd : h.directory.Ok (LegalName P)) (he : h.directory e ≠ none)
    {p : Hub × Option EntryRef} (hwalk : walk P true names h e = .ok p)
    (hsame : p.1.nextEntry = h.nextEntry) : AllThere P h names e := by
  induction names generalizing e with
  | nil => exact trivial
  | cons name names ih =>
    unfold walk at hwalk
    split at hwalk
    · next hbad => exact .inl hbad
    · obtain ⟨found, hfind, hfound⟩ := findChild_spec hd he name
      rw [hfind, ok_bind] at hwalk
      cases found with
      | some c =>
        have hc := (hfound c).mp rfl
        exact .inr ⟨c, hc, ih (hc.exists_node he) hwalk⟩
      | none =>
        obtain ⟨⟨h₁, c⟩, hadd, hwalk⟩ := bind_eq_ok.mp hwalk
        obtain ⟨_, _, _, hh⟩ := (addChild_frame h e name).result hadd
        have hmore := (walk_grows true names h₁ c).result hwalk
        rw [hsame, show h₁.nextEntry = h.nextEntry + 1 from congrArg Hub.nextEntry hh] at hmore
        exact absurd hmore (Nat.not_succ_le_self _)

theorem goToEntry_grows (base : EntryRef) (path : CString) :
    Returns (resTreeGetEntry P h base path) fun p => h.nextEntry ≤ p.1.nextEntry := by
  unfold resTreeGetEntry goToEntry
  split
  · exact Nat.le_refl _
  · exact walk_grows true _ h base

theorem pathThere_of_get (hd : h.directory.Ok (LegalName P)) (he : h.directory base ≠ none)
    {p : Hub × Option EntryRef} (hget : resTreeGetEntry P h base path = .ok p)
    (hsame : p.1.nextEntry = h.nextEntry) : PathThere P h base path := by
  unfold resTreeGetEntry goToEntry at hget
  split at hget
  · next hbad => exact .inl hbad
  · exact .inr (allThere_of_walk hd he hget hsame)

/-- If `resTree_GetEntry` creates no entry, it changes nothing and finds what is there. -/
theorem getEntry_there (hwf : WellFormed h) (hd : h.directory.Ok (LegalName P))
    (he : h.directory base ≠ none) (hall : PathThere P h base path) :
    ∃ found, resTreeGetEntry P h base path = .ok (h, found) ∧
      ∀ x, found = some x ↔ h.directory.Leads base (pathElements path) x := by
  obtain ⟨found, hfind, hfound⟩ := findEntry_spec hd he path
  refine ⟨found, ?_, hfound⟩
  obtain ⟨⟨h₁, found₁⟩, hgo, heq⟩ := bind_eq_ok.mp hfind
  cases heq
  cases ((sat_goToEntry (.refl hwf) base path false).result hgo).2 rfl
  rw [goToEntry_there hd he hall, hgo]

/-- The first part of a computation that gets through gets through. -/
theorem sat_bind_ok {β : Type} {x : Except Fault α} {f : α → Except Fault β} {R : α → Prop}
    {Q : β → Prop} (hx : Sat Bad x R) (hbind : Sat (· ≠ .typeConfusion) (x >>= f) Q) :
    ∃ a, x = .ok a ∧ R a ∧ Sat (· ≠ .typeConfusion) (f a) Q := by
  cases x with
  | ok a => exact ⟨a, rfl, hx, hbind⟩
  | error e =>
    refine absurd (fun heq => ?_) hbind
    subst heq
    exact hx trivial

/-! ### Getters for Observations -/

section Observations

variable {found : Except Fault (Hub × Option EntryRef)} {obs : Option EntryRef} {unset : α}
  {get : Observation → α}

theorem found_of_sameState (hfound : Sat Bad found fun p => Ext P b p.1)
    (hsame : Sat (· ≠ .typeConfusion) (getFromObservation found unset get)
      fun p => SameState h p.1) :
    ∃ h₁ obs, found = .ok (h₁, obs) ∧ SameState h h₁ := by
  obtain ⟨⟨h₁, obs⟩, hf, -, hsame⟩ := sat_bind_ok hfound hsame
  refine ⟨h₁, obs, hf, ?_⟩
  cases obs with
  | none => exact hsame
  | some e =>
    obtain ⟨r, -, -, hsame⟩ := sat_bind_ok (sat_attachedTo h₁ e) hsame
    obtain ⟨x, -, -, hsame⟩ := sat_bind_ok (sat_getResource h₁ r) hsame
    revert hsame
    cases x.cls with
    | observation o => exact id
    | placeholder => exact fun hbad => absurd (by simp) hbad
    | ioPoint t isMandatory => exact fun hbad => absurd (by simp) hbad

/-- An Observation that has been found can be read. -/
theorem sameState_of_found (hwf : WellFormed h) (hobs : ∀ e, obs = some e → h.IsObservation e) :
    Sat (· ≠ .typeConfusion) (getFromObservation (.ok (h, obs)) unset get)
      fun p => SameState h p.1 := by
  cases obs with
  | none => exact SameState.refl h
  | some e =>
    obtain ⟨entry, he, ht⟩ := hobs e rfl
    obtain ⟨r, x, hattached, hx, o, hcls⟩ := hwf.observation he ht
    unfold getFromObservation
    rw [ok_bind]
    dsimp only
    rw [hattached, ok_bind, getResource_ok.mpr hx, ok_bind, hcls]
    exact SameState.refl h

theorem sat_adminFindObservation (he : Ext P b h) (path : CString) :
    Sat Bad (adminFindObservation P h path) fun p => Ext P b p.1 := by
  unfold adminFindObservation
  split
  · exact he
  · refine (sat_resTreeGetEntry he rootPtr _).bind ?_
    rintro ⟨h₁, ns⟩ he₁
    cases ns with
    | none => exact id
    | some ns =>
      refine (sat_resTreeFindEntry he₁ ns _).bind fun target _ => ?_
      cases target with
      | none => exact id
      | some e => exact (sat_getEntry h₁ e).bind fun entry _ => he₁

theorem obsNamespace_same (hwf : WellFormed h) (hs : Searchable P h)
    (hget : resTreeGetEntry P h rootPtr (ascii "obs") = .ok (h₁, some ns))
    (hsame : h₁.nextEntry = h.nextEntry) :
    h₁ = h ∧ h.directory.Leads rootPtr [ascii "obs"] ns := by
  have hall := pathThere_of_get hs.directory hs.exists_root hget hsame
  obtain ⟨found, hget', hfound⟩ := getEntry_there hwf hs.directory hs.exists_root hall
  cases hget.symm.trans hget'
  rw [pathElements_obs] at hfound
  exact ⟨rfl, (hfound ns).mp rfl⟩

theorem findHarmless_of_ok (hwf : WellFormed h) (hs : Searchable P h)
    (hfind : adminFindObservation P h path = .ok (h₁, obs)) (hsame : SameState h h₁) :
    FindHarmless h path := by
  intro rest hrel
  have hfind' := hfind
  unfold adminFindObservation at hfind'
  rw [hrel] at hfind'
  obtain ⟨⟨h₂, ns⟩, hget, hfind'⟩ := bind_eq_ok.mp hfind'
  cases ns with
  | none => cases hfind'
  | some ns =>
    obtain ⟨target, -, hfind'⟩ := bind_eq_ok.mp hfind'
    cases target with
    | none => cases hfind'
    | some e =>
      obtain ⟨entry, -, hfind'⟩ := bind_eq_ok.mp hfind'
      cases hfind'
      obtain ⟨rfl, -⟩ := obsNamespace_same hwf hs hget hsame.nextEntry
      obtain ⟨e, -, he, -⟩ := (adminFind_spec hs hrel).mp hfind
      exact ⟨e, he⟩

/-- `resTree_GetObservation` converts an entry, which is notified, or does no more than go to it. -/
theorem getObservation_cases (fuel : Nat) (hwf : WellFormed h) (base : EntryRef) (path : CString) :
    Returns (resTreeGetObservation P fuel h base path) fun p =>
      h.log.length < p.1.log.length ∨ ∃ target, resTreeGetEntry P h base path = .ok (p.1, target) ∧
        ∀ e, target = some e → p.1.Settled e := by
  unfold resTreeGetObservation
  refine ((sat_goToEntry (.refl hwf) base path true).weaken fun _ => False.elim).and_result.bind ?_
  rintro ⟨h₁, found⟩ ⟨⟨he₁, -⟩, hgo⟩
  cases found with
  | none => exact .inr ⟨none, hgo, by simp⟩
  | some e =>
    refine ((sat_getEntry h₁ e).weaken fun _ => False.elim).bind fun entry hentry => ?_
    have hreplace : Replaceable entry.type .observation →
        Returns (do
          let added ← replaceResource P h₁ e (resCreateObservation e) .observation
          let h ← resRestoreBackup P fuel added.1 added.2
          let h ← callResourceTreeChangeHandlers P h e .observation .added
          pure (h, some e)) fun p => h.log.length < p.1.log.length := by
      intro hre
      refine ((he₁.replace hentry hre .observation).weaken fun _ => False.elim).bind ?_
      rintro ⟨h₂, r⟩ ⟨he₂, hr, hrep⟩
      dsimp only at he₂ hr hrep
      subst hr
      obtain ⟨z, hz, hcls⟩ := replaced_new he₁.wf hentry hrep
      refine ((sat_resRestoreBackup fuel he₂ hz hcls).weaken
        fun _ => False.elim).bind fun h₃ he₃ => ?_
      refine ((he₃.treeChange e .observation .added).weaken
        fun _ => False.elim).bind fun h₄ he₄ => ?_
      obtain ⟨-, path, rfl⟩ := he₄
      obtain ⟨evs, hlog, -⟩ := he₃.settled
      show h.log.length < (h₃.log ++ [_]).length
      rw [hlog]
      simp
    have hsettled : entry.type ≠ .nameSpace → entry.type ≠ .placeholder →
        ∀ e', some e = some e' → h₁.Settled e' := by
      rintro hn hp _ ⟨⟩
      exact ⟨entry, hentry, hn, hp⟩
    split
    · next ht => exact (hreplace (ht ▸ .nameSpace _)).mono fun _ => .inl
    · next ht => exact (hreplace (ht ▸ .placeholder _)).mono fun _ => .inl
    all_goals
      next ht =>
        refine .inr ⟨some e, hgo, hsettled ?_ ?_⟩ <;> rw [ht] <;> simp

theorem getHarmless_of_ok (hwf : WellFormed h) (hs : Searchable P h)
    (hget : adminGetObservation P fuel h path = .ok (h₁, obs)) (hsame : SameState h h₁) :
    GetHarmless P h path := by
  intro rest hrel
  unfold adminGetObservation at hget
  rw [hrel] at hget
  obtain ⟨⟨h₂, ns⟩, hns, hget⟩ := bind_eq_ok.mp hget
  cases ns with
  | none => cases hget
  | some ns =>
    have he₂ := (sat_resTreeGetEntry (.refl hwf) rootPtr (ascii "obs")).result hns
    rcases (getObservation_cases fuel he₂.wf ns rest).result hget with
      hlog | ⟨target, hgo, hsettled⟩
    · obtain ⟨evs, hlog₂, -⟩ := he₂.settled
      dsimp only at hlog hlog₂
      rw [hsame.log, hlog₂, List.length_append] at hlog
      omega
    · have hle := (goToEntry_grows rootPtr (ascii "obs")).result hns
      have hle' := (goToEntry_grows ns rest).result hgo
      have hnext := hsame.nextEntry
      dsimp only at hle hle' hgo hsettled
      obtain ⟨rfl, hleads⟩ := obsNamespace_same hwf hs hns
        (Nat.le_antisymm (hnext ▸ hle') hle)
      have hbase := hleads.exists_node hs.exists_root
      have hall := pathThere_of_get hs.directory hbase hgo hnext
      obtain ⟨found, hgo', hfound⟩ := getEntry_there hwf hs.directory hbase hall
      cases hgo.symm.trans hgo'
      exact ⟨ns, hleads, hall, fun e he => hsettled e ((hfound e).mpr he)⟩

theorem getObservation_of_harmless (fuel : Nat) (hwf : WellFormed h) (hs : Searchable P h)
    (hharmless : GetHarmless P h path) : ∃ obs, adminGetObservation P fuel h path = .ok (h, obs) ∧
      ∀ e, obs = some e → h.IsObservation e := by
  unfold adminGetObservation
  cases hrel : obsRelative path with
  | none => exact ⟨none, rfl, by simp⟩
  | some rest =>
    obtain ⟨ns, hleads, hall, hsettled⟩ := hharmless rest hrel
    have hget : resTreeGetEntry P h rootPtr (ascii "obs") = .ok (h, some ns) := by
      rcases obsNamespace_cases hs with ⟨ns', hleads', _, hget⟩ | ⟨hno, _, _⟩
      · cases hs.directory.leads_unique hleads hleads'
        exact hget
      · exact absurd hleads (hno ns)
    obtain ⟨found, hgo, hfound⟩ :=
      getEntry_there hwf hs.directory (hleads.exists_node hs.exists_root) hall
    dsimp only
    rw [hget, ok_bind]
    dsimp only
    unfold resTreeGetObservation
    rw [show goToEntry P h ns rest true = .ok (h, found) from hgo, ok_bind]
    cases found with
    | none => exact ⟨none, rfl, by simp⟩
    | some e =>
      obtain ⟨entry, he, hn, hp⟩ := hsettled e ((hfound e).mp rfl)
      dsimp only
      rw [getEntry_ok.mpr he, ok_bind]
      cases ht : entry.type with
      | nameSpace => exact absurd ht hn
      | placeholder => exact absurd ht hp
      | input => exact ⟨none, rfl, by simp⟩
      | output => exact ⟨none, rfl, by simp⟩
      | observation =>
        refine ⟨some e, rfl, ?_⟩
        rintro _ ⟨⟩
        exact ⟨entry, he, ht⟩

theorem findObservation_of_harmless (hs : Searchable P h) (hharmless : FindHarmless h path) :
    ∃ obs, adminFindObservation P h path = .ok (h, obs) ∧
      ∀ e, obs = some e → h.IsObservation e := by
  cases hrel : obsRelative path with
  | none =>
    unfold adminFindObservation
    rw [hrel]
    exact ⟨none, rfl, by simp⟩
  | some rest =>
    obtain ⟨e, he⟩ := hharmless rest hrel
    obtain ⟨entry, hentry⟩ := exists_entry_of_found hs he
    refine ⟨_, (adminFind_spec hs hrel).mpr ⟨e, entry, he, hentry, rfl⟩, fun e' he' => ?_⟩
    split at he'
    · next ht =>
      cases he'
      exact ⟨entry, hentry, ht⟩
    · cases he'

end Observations

/-- The getters that find an Observation. -/
theorem readOnly_find (hr : Reachable P h) (unset : α) (get : Observation → α) :
    Sat (· ≠ .typeConfusion) (getFromObservation (adminFindObservation P h path) unset get)
      (fun p => SameState h p.1) ↔ FindHarmless h path := by
  have hwf := reachable_wellFormed hr
  have hs := reachable_searchable hr
  constructor
  · intro hsame
    obtain ⟨h₁, obs, hfind, hsame⟩ :=
      found_of_sameState (sat_adminFindObservation (.refl hwf) path) hsame
    exact findHarmless_of_ok hwf hs hfind hsame
  · intro hharmless
    obtain ⟨obs, hfind, hobs⟩ := findObservation_of_harmless hs hharmless
    rw [hfind]
    exact sameState_of_found hwf hobs

/-- The getter that gets one. -/
theorem readOnly_get (hr : Reachable P h) (unset : α) (get : Observation → α) :
    Sat (· ≠ .typeConfusion) (getFromObservation (adminGetObservation P fuel h path) unset get)
      (fun p => SameState h p.1) ↔ GetHarmless P h path := by
  have hwf := reachable_wellFormed hr
  have hs := reachable_searchable hr
  constructor
  · intro hsame
    obtain ⟨h₁, obs, hget, hsame⟩ :=
      found_of_sameState (sat_adminGetObservation fuel (.refl hwf) path) hsame
    exact getHarmless_of_ok hwf hs hget hsame
  · intro hharmless
    obtain ⟨obs, hget, hobs⟩ := getObservation_of_harmless fuel hwf hs hharmless
    rw [hget]
    exact sameState_of_found hwf hobs

/-! ### Getters of the Query service -/

theorem refused_find (hbad : RefusedAtOnce P path) :
    resTreeFindEntry P h base path = .ok none := by
  unfold resTreeFindEntry goToEntry
  rcases hbad with hbad | ⟨name, hname, hbad⟩
  · rw [if_pos hbad]
    rfl
  · split
    · rfl
    · cases hnames : pathElements path with
      | nil => simp [hnames] at hname
      | cons first rest =>
        rw [hnames] at hname
        cases hname
        rw [walk, if_pos (show name = [] ∨ _ from hbad)]
        rfl

theorem refused_of_find (hnone : h.directory base = none)
    (hfind : resTreeFindEntry P h base path = .ok found)
    (hfound : ∀ e, found = some e → h.directory e ≠ none) : RefusedAtOnce P path := by
  have hent : h.entries base = none := by
    cases he : h.entries base with
    | none => rfl
    | some entry => simp [directory_of_entry he] at hnone
  unfold resTreeFindEntry goToEntry at hfind
  split at hfind
  · next hbad => exact .inl hbad
  · cases helements : pathElements path with
    | nil =>
      rw [helements] at hfind
      cases hfind
      exact absurd hnone (hfound base rfl)
    | cons first rest =>
      rw [helements] at hfind
      unfold walk at hfind
      split at hfind
      · next hbad => exact .inr ⟨first, by simp [helements], hbad⟩
      · simp [resTreeFindChild, Hub.getEntry, hent, error_bind] at hfind

/-- The namespace of the client is got without a change, and the path can be looked up from it. -/
structure ClientFound (P : Platform) (h : Hub) (session : Nat) (path : CString) (h₁ : Hub)
    (ns : Option EntryRef) : Prop where
  got : hubGetClientNamespace P h session = .ok (h₁, ns)
  same : SameState h h₁
  lookup : ∀ base, ns = some base → ∃ found, resTreeFindEntry P h₁ base path = .ok found ∧
    ∀ e, found = some e → h₁.directory e ≠ none

theorem clientHarmless_of_found {ns : Option EntryRef} (hwf : WellFormed h) (hs : Searchable P h)
    (hfound : ClientFound P h session path h₁ ns) : ClientHarmless P h session path := by
  obtain ⟨hgot, hsame, hlookup⟩ := hfound
  unfold hubGetClientNamespace at hgot
  unfold ClientHarmless
  cases hsession : h.sessions session with
  | some ns' =>
    rw [hsession] at hgot
    cases hgot
    obtain ⟨found, hfind, hfound⟩ := hlookup ns' rfl
    by_cases hnone : h.directory ns' = none
    · exact .inr (refused_of_find hnone hfind hfound)
    · exact .inl hnone
  | none =>
    intro appName happ
    rw [hsession, happ] at hgot
    obtain ⟨⟨h₂, app⟩, hroot, hgot⟩ := bind_eq_ok.mp hgot
    cases app with
    | none => cases hgot
    | some app =>
      obtain ⟨⟨h₃, ns'⟩, hget, hgot⟩ := bind_eq_ok.mp hgot
      cases hgot
      have hle := (goToEntry_grows rootPtr (ascii "app")).result hroot
      have hle' := (goToEntry_grows app appName).result hget
      have hnext : h₃.nextEntry = h.nextEntry := hsame.nextEntry
      have hnext₂ : h₂.nextEntry = h.nextEntry := Nat.le_antisymm (hnext ▸ hle') hle
      have hall := pathThere_of_get hs.directory hs.exists_root hroot hnext₂
      obtain ⟨found, hroot', hfound⟩ := getEntry_there hwf hs.directory hs.exists_root hall
      cases hroot.symm.trans hroot'
      have hleads := (hfound app).mp rfl
      rw [show pathElements (ascii "app") = [ascii "app"] by decide] at hleads
      exact ⟨app, hleads,
        pathThere_of_get hs.directory (hleads.exists_node hs.exists_root) hget hnext⟩

theorem clientFound_of_harmless (hwf : WellFormed h) (hs : Searchable P h)
    (hharmless : ClientHarmless P h session path) :
    ∃ h₁ ns, ClientFound P h session path h₁ ns := by
  -- a namespace that is there can be searched, also once it is saved
  have hlookup : ∀ sessions base, h.directory base ≠ none → ∃ found,
      resTreeFindEntry P { h with sessions } base path = .ok found ∧
        ∀ e, found = some e → h.directory e ≠ none := by
    intro sessions base hbase
    obtain ⟨found, hfind, hfound⟩ :=
      findEntry_spec (h := { h with sessions }) hs.directory hbase path
    exact ⟨found, hfind, fun e he => ((hfound e).mp he).exists_node hbase⟩
  unfold ClientHarmless at hharmless
  cases hsession : h.sessions session with
  | some ns =>
    rw [hsession] at hharmless
    refine ⟨h, some ns, by rw [hubGetClientNamespace, hsession]; rfl, .refl h, ?_⟩
    rintro _ ⟨⟩
    rcases hharmless with hns | hrefused
    · exact hlookup h.sessions ns hns
    · exact ⟨none, refused_find hrefused, by simp⟩
  | none =>
    rw [hsession] at hharmless
    cases happ : P.appName session with
    | none =>
      exact ⟨h, none, by rw [hubGetClientNamespace, hsession, happ]; rfl, .refl h, by simp⟩
    | some appName =>
      obtain ⟨app, hleads, hall⟩ := hharmless appName happ
      have hroot : resTreeGetEntry P h rootPtr (ascii "app") = .ok (h, some app) := by
        have hthere : PathThere P h rootPtr (ascii "app") := .inr (.inr ⟨app, hleads, trivial⟩)
        obtain ⟨found, hget, hfound⟩ := getEntry_there hwf hs.directory hs.exists_root hthere
        rw [hget, (hfound app).mpr hleads]
      have happNode := hleads.exists_node hs.exists_root
      obtain ⟨found, hget, hfound⟩ := getEntry_there hwf hs.directory happNode hall
      refine ⟨{ h with sessions := Function.update h.sessions session found }, found, ?_, rfl, ?_⟩
      · rw [hubGetClientNamespace, hsession, happ]
        dsimp only
        rw [hroot, ok_bind]
        dsimp only
        rw [hget, ok_bind]
        rfl
      · rintro base rfl
        exact hlookup _ base (((hfound base).mp rfl).exists_node happNode)

section Queries

variable {read : Resource → Except Fault (GetResult α)}

/-- What is left of a query once the resource has been looked up: it is read. -/
theorem queryRead_ends (hwf : WellFormed h) (hread : ∀ x, Typed x → Ends (read x))
    (hsame : SameState h h₁) (hfind : queryFindResource P h session path = .ok (h₁, found))
    (hfound : ∀ e, found = some e → h.directory e ≠ none) :
    Sat (· ≠ .typeConfusion) (queryRead P h session path read) fun p => SameState h p.1 := by
  unfold queryRead
  rw [hfind, ok_bind]
  cases found with
  | none => exact hsame
  | some e =>
    obtain ⟨entry, he⟩ := entry_of_node (hfound e rfl)
    have he₁ : h₁.entries e = some entry := by rw [hsame]; exact he
    dsimp only
    rw [getEntry_ok.mpr he₁, ok_bind]
    cases hptr : entry.resourcePtr with
    | none => exact hsame
    | some r =>
      obtain ⟨x, hx, -, htyped⟩ := hwf.resource he hptr
      have hx₁ : h₁.resources r = some x := by rw [hsame]; exact hx
      obtain ⟨result, hresult⟩ := hread x htyped
      dsimp only
      rw [getResource_ok.mpr hx₁, ok_bind, hresult, ok_bind]
      exact hsame

theorem sat_queryFindResource (he : Ext P b h) (session : Nat) (path : CString) :
    Sat Bad (queryFindResource P h session path) fun p => Ext P b p.1 := by
  unfold queryFindResource
  split
  · exact (sat_resTreeFindEntryAtAbsolutePath he path).bind fun _ _ => he
  · refine (sat_hubGetClientNamespace he session).bind ?_
    rintro ⟨h₁, ns⟩ he₁
    cases ns with
    | none => exact he₁
    | some base =>
      refine (sat_resTreeFindEntry he₁ base path).bind fun found _ => ?_
      cases found with
      | none => exact he₁
      | some e => exact (sat_getEntry h₁ e).bind fun entry _ => he₁

theorem found_of_queryRead (he : Ext P b h) (hread : ∀ x, Typed x → Ends (read x))
    (hsame : Sat (· ≠ .typeConfusion) (queryRead P h session path read) fun p => SameState h p.1) :
    ∃ h₁ found, queryFindResource P h session path = .ok (h₁, found) ∧ SameState h h₁ := by
  unfold queryRead at hsame
  obtain ⟨⟨h₁, found⟩, hfind, he₁, hsame⟩ :=
    sat_bind_ok (sat_queryFindResource he session path) hsame
  refine ⟨h₁, found, hfind, ?_⟩
  cases found with
  | none => exact hsame
  | some e =>
    obtain ⟨entry, -, hentry, hsame⟩ := sat_bind_ok (sat_getEntry h₁ e) hsame
    revert hsame
    cases hptr : entry.resourcePtr with
    | none => exact id
    | some r =>
      intro hsame
      obtain ⟨x, hx, -, htyped⟩ := he₁.wf.resource hentry hptr
      obtain ⟨result, hresult⟩ := hread x htyped
      dsimp only at hsame
      rw [getResource_ok.mpr hx, ok_bind, hresult, ok_bind] at hsame
      exact hsame

theorem clientFound_of_find (hrel : path.head? ≠ some 0x2f)
    (hfind : queryFindResource P h session path = .ok (h₁, found)) (hsame : SameState h h₁) :
    ∃ ns, ClientFound P h session path h₁ ns := by
  unfold queryFindResource at hfind
  rw [if_neg hrel] at hfind
  obtain ⟨⟨h₂, ns⟩, hgot, hfind⟩ := bind_eq_ok.mp hfind
  cases ns with
  | none =>
    cases hfind
    exact ⟨none, hgot, hsame, by simp⟩
  | some base =>
    obtain ⟨target, hlookup, hfind⟩ := bind_eq_ok.mp hfind
    cases target with
    | none =>
      cases hfind
      refine ⟨some base, hgot, hsame, ?_⟩
      rintro _ ⟨⟩
      exact ⟨none, hlookup, by simp⟩
    | some e =>
      obtain ⟨entry, hentry, hfind⟩ := bind_eq_ok.mp hfind
      cases hfind
      refine ⟨some base, hgot, hsame, ?_⟩
      rintro _ ⟨⟩
      refine ⟨some e, hlookup, ?_⟩
      rintro _ ⟨⟩
      simp [directory_of_entry (getEntry_ok.mp hentry)]

/-- The getters of the Query service for resources. -/
theorem readOnly_query (hr : Reachable P h) (hread : ∀ x, Typed x → Ends (read x)) :
    Sat (· ≠ .typeConfusion) (queryRead P h session path read) (fun p => SameState h p.1) ↔
      QueryHarmless P h session path := by
  have hwf := reachable_wellFormed hr
  have hs := reachable_searchable hr
  constructor
  · intro hsame hrel
    obtain ⟨h₁, found, hfind, hsame⟩ := found_of_queryRead (.refl hwf) hread hsame
    obtain ⟨ns, hclient⟩ := clientFound_of_find hrel hfind hsame
    exact clientHarmless_of_found hwf hs hclient
  · intro hharmless
    by_cases hslash : path.head? = some 0x2f
    · obtain ⟨found, hfind, hfound⟩ := findAbsolute_spec hs path
      have hquery : queryFindResource P h session path = .ok (h, found) := by
        rw [queryFindResource, if_pos hslash, hfind]
        rfl
      refine queryRead_ends hwf hread (.refl h) hquery fun e he => ?_
      obtain ⟨entry, hentry⟩ := hfound e he
      simp [directory_of_entry hentry]
    · obtain ⟨h₁, ns, hgot, hsame, hlookup⟩ :=
        clientFound_of_harmless hwf hs (hharmless hslash)
      have hdir : h₁.directory = h.directory := by rw [hsame]; rfl
      have hquery : ∃ found, queryFindResource P h session path = .ok (h₁, found) ∧
          ∀ e, found = some e → h.directory e ≠ none := by
        unfold queryFindResource
        rw [if_neg hslash, hgot, ok_bind]
        cases ns with
        | none => exact ⟨none, rfl, by simp⟩
        | some base =>
          obtain ⟨found, hfind, hfound⟩ := hlookup base rfl
          dsimp only
          rw [hfind, ok_bind]
          cases found with
          | none => exact ⟨none, rfl, by simp⟩
          | some e =>
            obtain ⟨entry, hentry⟩ := entry_of_node (hfound e rfl)
            dsimp only
            rw [getEntry_ok.mpr hentry, ok_bind]
            refine ⟨_, rfl, fun e' he' => ?_⟩
            split at he'
            · cases he'
              exact hdir ▸ hfound e rfl
            · cases he'
      obtain ⟨found, hquery, hfound⟩ := hquery
      exact queryRead_ends hwf hread hsame hquery hfound

end Queries

/-! ### All getters -/

/-- The getters that are given the hub only to read it. -/
theorem readOnly_of_ends {x : Except Fault α} (hx : Ends x) :
    Sat (· ≠ .typeConfusion) ((fun _ => h) <$> x) (SameState h) := by
  obtain ⟨a, rfl⟩ := hx
  exact SameState.refl h

theorem queryBuffer_readOnly (hr : Reachable P h) (path : CString) (query : BufferQuery) :
    Sat (· ≠ .typeConfusion) ((fun _ => h) <$> queryBuffer P h path query) (SameState h) := by
  have hwf := reachable_wellFormed hr
  rw [sat_map_iff]
  obtain ⟨found, hfind, hfound⟩ := queryFind_spec (reachable_searchable hr) path
  unfold queryBuffer
  rw [hfind, ok_bind]
  cases found with
  | none => exact SameState.refl h
  | some e =>
    obtain ⟨-, entry, he, ht⟩ := (hfound e).mp rfl
    obtain ⟨r, x, hattached, hx, o, hcls⟩ := hwf.observation he ht
    dsimp only
    rw [hattached, ok_bind, getResource_ok.mpr hx, ok_bind, hcls]
    exact (misread_answerQuery (not_not.mpr rfl) query).mono fun _ _ => .refl h

/-- Those for current values. -/
theorem readOnly_queryValue (hr : Reachable P h) {dataType : Option DataType}
    {get : DataSample → DataType → Except Fault (GetResult α)}
    (hget : ∀ s t, s.type = t → (dataType.isSome → dataType = some t) → Ends (get s t)) :
    Sat (· ≠ .typeConfusion) (queryReadValue P h session path dataType get)
      (fun p => SameState h p.1) ↔ QueryHarmless P h session path := by
  refine readOnly_query hr fun x hx => ?_
  cases hcur : x.currentValue with
  | none => exact ends_pure _
  | some s =>
    dsimp only
    split
    · exact ends_pure _
    · next hno =>
      refine (hget s x.currentType (hx.current s hcur) fun hsome => ?_).bind fun _ _ => ends_pure _
      exact not_not.mp fun hne => hno ⟨hsome, hne⟩

theorem ends_getJson {s : DataSample} (hs : s.type = .json) (size : Nat) :
    Ends (do
      let value ← dataSampleGetJson s
      pure (copyOut size value)) :=
  (Ends.of_sat (sat_getText hs (.inr rfl))).bind fun _ _ => ends_pure _

/-- A getter is read-only exactly if what it would create or dereference is there. -/
theorem readOnly_iff (hr : Reachable P h) (fuel : Nat) (g : Getter) :
    ReadOnly P fuel h g ↔ g.Harmless P h := by
  have hwf := reachable_wellFormed hr
  have ht := reachable_treeOk hr
  have hs := ht.toSearchable
  have hpure : ∀ {β : Type} {x : Except Fault β}, Ends x →
      (Sat (· ≠ .typeConfusion) ((fun _ => h) <$> x) (SameState h) ↔ True) :=
    fun hx => iff_true_intro (readOnly_of_ends hx)
  have hdef : ∀ x, Typed x → AdminValue.ofDefault.TypedIn x := fun _ => typedIn_ofDefault
  have hover : ∀ x, Typed x → AdminValue.ofOverride.TypedIn x := fun _ => typedIn_ofOverride
  unfold ReadOnly
  cases g with
  | adminGetMinPeriod | adminGetHighLimit | adminGetLowLimit | adminGetChangeBy
  | adminGetJsonExtraction | adminGetBufferMaxCount | adminGetBufferBackupPeriod =>
    exact sat_map_iff.trans (readOnly_find hr _ _)
  | adminGetTransform path => exact sat_map_iff.trans (readOnly_get hr _ _)
  | adminGetEntryType path => exact hpure (atEntry_ends hs (fun _ _ _ => ends_pure _) path)
  | adminGetFirstChild path size => exact hpure (adminGetFirstChild_ends ht path size)
  | adminGetNextSibling path size => exact hpure (adminGetNextSibling_ends ht path size)
  | adminGetSource path size => exact hpure (adminGetSource_ends hwf ht path size)
  | adminIsMandatory path => exact hpure (adminIsMandatory_ends hwf hs path)
  | adminGetUnits path size =>
    exact hpure (adminRead_ends hwf hs (fun _ _ _ _ => ends_pure _) path)
  | adminGetDataType path =>
    exact hpure (adminRead_ends hwf hs (fun _ _ _ _ => ends_pure _) path)
  | adminHasDefault path | adminHasOverride path => exact hpure (adminHasValue_ends hwf hs path)
  | adminGetDefaultDataType path | adminGetOverrideDataType path =>
    exact hpure (adminGetValueDataType_ends hwf hs path)
  | adminGetBooleanDefault path => exact hpure (adminGetBoolean_ends hwf hs hdef path)
  | adminGetNumericDefault path => exact hpure (adminGetNumeric_ends hwf hs hdef path)
  | adminGetStringDefault path size => exact hpure (adminGetString_ends hwf hs hdef path size)
  | adminGetJsonDefault path size => exact hpure (adminGetJson_ends hwf hs hdef path size)
  | adminGetBooleanOverride path => exact hpure (adminGetBoolean_ends hwf hs hover path)
  | adminGetNumericOverride path => exact hpure (adminGetNumeric_ends hwf hs hover path)
  | adminGetStringOverride path size => exact hpure (adminGetString_ends hwf hs hover path size)
  | adminGetJsonOverride path size => exact hpure (adminGetJson_ends hwf hs hover path size)
  | queryBuffer path query => exact iff_true_intro (queryBuffer_readOnly hr path query)
  | queryGetDataType | queryGetUnits =>
    exact sat_map_iff.trans (readOnly_query hr fun _ _ => ends_pure _)
  | queryGetTimestamp =>
    exact sat_map_iff.trans (readOnly_queryValue hr fun _ _ _ _ => ends_pure _)
  | queryGetBoolean =>
    refine sat_map_iff.trans (readOnly_queryValue hr fun s t hs htype => ?_)
    cases htype rfl
    exact (Ends.of_sat (sat_getBoolean hs)).bind fun _ _ => ends_pure _
  | queryGetNumeric =>
    refine sat_map_iff.trans (readOnly_queryValue hr fun s t hs htype => ?_)
    cases htype rfl
    exact (Ends.of_sat (sat_getNumeric hs)).bind fun _ _ => ends_pure _
  | queryGetString =>
    refine sat_map_iff.trans (readOnly_queryValue hr fun s t hs htype => ?_)
    cases htype rfl
    exact (Ends.of_sat (sat_getText hs (.inl rfl))).bind fun _ _ => ends_pure _
  | queryGetJson =>
    refine sat_map_iff.trans (readOnly_queryValue hr fun s t hs _ => ?_)
    split
    · next hjson => exact ends_getJson (hs.trans hjson) _
    · exact jsonOut_ends hs _
  | queryGetJsonExample =>
    refine sat_map_iff.trans (readOnly_query hr fun x hx => ?_)
    split
    · exact ends_pure _
    · cases hexample : x.jsonExample with
      | none => exact ends_pure _
      | some s => exact ends_getJson (hx.jsonExample s hexample) _

/-- Before there is an Observation, only paths that cannot be one's are harmless. -/
theorem readOnly_iff_boot :
    ReadOnly smallPlatform 8 (boot smallEnvironment []) (.adminGetTransform (ascii "/app")) ∧
    ¬ ReadOnly smallPlatform 8 (boot smallEnvironment []) (.adminGetMinPeriod (ascii "o")) := by
  have hr : Reachable smallPlatform (boot smallEnvironment []) := .boot _ _
  refine ⟨(readOnly_iff hr 8 _).mpr fun rest hrel => ?_, fun hreads => ?_⟩
  · rw [show obsRelative (ascii "/app") = none by decide] at hrel
    cases hrel
  · obtain ⟨e, ns, hns, -⟩ := (readOnly_iff hr 8 _).mp hreads (ascii "o") (by decide)
    cases hns with
    | child hroot hmem _ _ _ =>
      cases hroot
      cases hmem

/-- `admin_GetTransform` of an Observation that is not there creates it, and tells the handlers. -/
theorem readOnly_fails : ∃ h h', Reachable smallPlatform h ∧
    getterStep smallPlatform 8 h (.adminGetTransform (ascii "o")) = .ok h' ∧
    h'.notices = [(ascii "/obs/o", .observation, .added)] ∧
    ¬ ReadOnly smallPlatform 8 h (.adminGetTransform (ascii "o")) := by
  have hrun : passes (getterStep smallPlatform 8 (boot smallEnvironment [])
      (.adminGetTransform (ascii "o")))
        (fun h' => decide (h'.notices = [(ascii "/obs/o", .observation, .added)])) = true := by
    decide +kernel
  obtain ⟨h', hstep, hnotices⟩ := passes_iff.mp hrun
  have htold := of_decide_eq_true hnotices
  refine ⟨boot smallEnvironment [], h', .boot _ _, hstep, htold, fun hreads => ?_⟩
  unfold ReadOnly at hreads
  rw [hstep] at hreads
  rw [Hub.notices, SameState.log hreads] at htold
  cases htold

/-! ### The states that getters lead to -/

/-- The path of no entry. -/
theorem refused_dot : RefusedAtOnce P (ascii ".") := .inl (by decide)

theorem reachable_find (hr : Reachable P h) :
    Returns (adminFindObservation P h path) fun p => Reachable P p.1 := by
  unfold adminFindObservation
  split
  · exact hr
  · refine (Returns.of_ok fun p hget => ?_ :
      Returns (resTreeGetEntry P h rootPtr (ascii "obs"))
        fun p => p.2.isSome → Reachable P p.1).bind
        ?_
    · intro hsome
      obtain ⟨h₁, ns⟩ := p
      obtain ⟨ns, rfl⟩ := Option.isSome_iff_exists.mp hsome
      -- `admin_CreateObs` at a refused path does no more than create `/obs`
      refine .step 0 (.adminCreateObs (ascii ".")) hr ?_
      show Prod.fst <$> adminCreateObs P 0 h (ascii ".") = .ok h₁
      have hobs : adminGetObservation P 0 h (ascii ".") = .ok (h₁, none) := by
        unfold adminGetObservation
        rw [show obsRelative (ascii ".") = some (ascii ".") by decide]
        dsimp only
        rw [hget, ok_bind]
        rfl
      rw [adminCreateObs, hobs]
      rfl
    · rintro ⟨h₁, ns⟩ hr₁
      cases ns with
      | none => exact id
      | some ns =>
        refine Returns.skip fun target => ?_
        cases target with
        | none => exact id
        | some e => exact Returns.skip fun entry => hr₁ rfl

theorem reachable_get (hr : Reachable P h) (fuel : Nat) :
    Returns (adminGetObservation P fuel h path) fun p => Reachable P p.1 := by
  refine Returns.of_ok fun p hget => .step fuel (.adminCreateObs path) hr ?_
  show Prod.fst <$> adminCreateObs P fuel h path = .ok p.1
  rw [adminCreateObs, hget]
  rfl

theorem reachable_from {obs : Except Fault (Hub × Option EntryRef)} {unset : α}
    {get : Observation → α} (hobs : Returns obs fun p => Reachable P p.1) :
    Returns (getFromObservation obs unset get) fun p => Reachable P p.1 := by
  refine hobs.bind ?_
  rintro ⟨h₁, obs⟩ hr
  cases obs with
  | none => exact hr
  | some e =>
    refine Returns.skip fun r => Returns.skip fun x => ?_
    cases x.cls with
    | observation o => exact hr
    | placeholder => exact id
    | ioPoint t isMandatory => exact id

theorem reachable_client (hr : Reachable P h) (session : Nat) :
    Returns (hubGetClientNamespace P h session) fun p => Reachable P p.1 := by
  refine Returns.of_ok fun p hget => .step 0 (.ioDeleteResource session (ascii ".")) hr ?_
  obtain ⟨h₁, ns⟩ := p
  have hfind : ioFindResource P h session (ascii ".") = .ok (h₁, none) := by
    rw [ioFindResource, hget, ok_bind]
    cases ns with
    | none => rfl
    | some ns =>
      dsimp only
      rw [refused_find refused_dot]
      rfl
  show ioDeleteResource P h session (ascii ".") = .ok h₁
  rw [ioDeleteResource, hfind]
  rfl

theorem reachable_query (hr : Reachable P h) {read : Resource → Except Fault (GetResult α)} :
    Returns (queryRead P h session path read) fun p => Reachable P p.1 := by
  have hfind : Returns (queryFindResource P h session path) fun p => Reachable P p.1 := by
    unfold queryFindResource
    split
    · exact Returns.skip fun _ => hr
    · refine (reachable_client hr session).bind ?_
      rintro ⟨h₁, ns⟩ hr₁
      cases ns with
      | none => exact hr₁
      | some base =>
        refine Returns.skip fun found => ?_
        cases found with
        | none => exact hr₁
        | some e => exact Returns.skip fun entry => hr₁
  refine hfind.bind ?_
  rintro ⟨h₁, found⟩ hr₁
  cases found with
  | none => exact hr₁
  | some e =>
    refine Returns.skip fun entry => ?_
    cases entry.resourcePtr with
    | none => exact hr₁
    | some r => exact Returns.skip fun x => Returns.skip fun result => hr₁

/-- A getter that is not read-only leads to a state that the other operations lead to as well, so
`Reachable` covers runs with getters. -/
theorem reachable_getter (hr : Reachable P h) (fuel : Nat) (g : Getter) :
    Returns (getterStep P fuel h g) (Reachable P) := by
  cases g with
  | adminGetMinPeriod | adminGetHighLimit | adminGetLowLimit | adminGetChangeBy
  | adminGetJsonExtraction | adminGetBufferMaxCount | adminGetBufferBackupPeriod =>
    exact sat_map_iff.mpr (reachable_from (reachable_find hr))
  | adminGetTransform path => exact sat_map_iff.mpr (reachable_from (reachable_get hr fuel))
  | queryGetDataType | queryGetUnits | queryGetTimestamp | queryGetBoolean | queryGetNumeric
  | queryGetString | queryGetJson | queryGetJsonExample =>
    exact sat_map_iff.mpr (reachable_query hr)
  | _ => exact sat_map_iff.mpr (Returns.of_ok fun _ _ => hr)

end MangOH.DataHub
