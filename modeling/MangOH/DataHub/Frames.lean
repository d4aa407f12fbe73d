import MangOH.DataHub.Edits

/-! What the functions that move routes and entries around leave alone. -/
namespace MangOH.DataHub

open Outcome

variable {P : Platform} {h h' h'' : Hub} {r : ResRef} {e : EntryRef} {x : Resource}

theorem getResource_ok : h.getResource r = .ok x ↔ h.resources r = some x := by
  unfold Hub.getResource
  split <;> simp_all

theorem getEntry_ok {entry : Entry} : h.getEntry e = .ok entry ↔ h.entries e = some entry := by
  unfold Hub.getEntry
  split <;> simp_all

theorem entryType_ok {entry : Entry} (he : h.entries x.entryRef = some entry) :
    h.entryType x = .ok entry.type := by
  unfold Hub.entryType
  rw [getEntry_ok.mpr he]
  rfl

theorem modifyResource_ok {f : Resource → Resource} :
    h.modifyResource r f = .ok h' ↔ ∃ x, h.resources r = some x ∧ h' = h.setResource r (f x) := by
  unfold Hub.modifyResource
  simp only [bind_eq_ok, getResource_ok]
  constructor
  · rintro ⟨x, hx, ⟨⟩⟩
    exact ⟨x, hx, rfl⟩
  · rintro ⟨x, hx, rfl⟩
    exact ⟨x, hx, rfl⟩

theorem modifyEntry_ok {f : Entry → Entry} :
    h.modifyEntry e f = .ok h' ↔
      ∃ entry, h.entries e = some entry ∧ h' = h.setEntry e (f entry) := by
  unfold Hub.modifyEntry
  simp only [bind_eq_ok, getEntry_ok]
  constructor
  · rintro ⟨entry, he, ⟨⟩⟩
    exact ⟨entry, he, rfl⟩
  · rintro ⟨entry, he, rfl⟩
    exact ⟨entry, he, rfl⟩

/-! ### Routes -/

/-- Only routes have changed. -/
structure RoutesOnly (h h' : Hub) : Prop where
  entries : h'.entries = h.entries
  nextEntry : h'.nextEntry = h.nextEntry
  nextRes : h'.nextRes = h.nextRes
  nextRead : h'.nextRead = h.nextRead
  updating : h'.isUpdateInProgress = h.isUpdateInProgress
  log : h'.log = h.log
  handlers : h'.handlers = h.handlers
  nextHandler : h'.nextHandler = h.nextHandler
  orphanTimers : h'.orphanTimers = h.orphanTimers
  resources : ∀ q, (h'.resources q).map Resource.unrouted = (h.resources q).map Resource.unrouted

theorem RoutesOnly.refl (h : Hub) : RoutesOnly h h :=
  ⟨rfl, rfl, rfl, rfl, rfl, rfl, rfl, rfl, rfl, fun _ => rfl⟩

theorem RoutesOnly.trans (a : RoutesOnly h h') (b : RoutesOnly h' h'') : RoutesOnly h h'' :=
  ⟨b.entries.trans a.entries, b.nextEntry.trans a.nextEntry, b.nextRes.trans a.nextRes,
    b.nextRead.trans a.nextRead, b.updating.trans a.updating, b.log.trans a.log,
    b.handlers.trans a.handlers, b.nextHandler.trans a.nextHandler,
    b.orphanTimers.trans a.orphanTimers, fun q => (b.resources q).trans (a.resources q)⟩

theorem routesOnly_modify {f : Resource → Option ResRef} {g : Resource → List ResRef} :
    Returns (h.modifyResource r fun x => { x with srcPtr := f x, destList := g x })
      (RoutesOnly h) := by
  refine .of_ok fun h' hm => ?_
  obtain ⟨x, hx, rfl⟩ := modifyResource_ok.mp hm
  refine ⟨rfl, rfl, rfl, rfl, rfl, rfl, rfl, rfl, rfl, fun q => ?_⟩
  by_cases hq : q = r
  · subst hq
    simp [Hub.setResource, hx, Resource.unrouted]
  · simp [Hub.setResource, hq]

theorem routesOnly_unlinkSource (h : Hub) (dest : ResRef) :
    Returns (unlinkSource h dest) (RoutesOnly h) := by
  refine Returns.of_ok fun h' hu => ?_
  unfold unlinkSource at hu
  simp only [bind_eq_ok] at hu
  obtain ⟨d, hd, hu⟩ := hu
  split at hu
  · cases hu
    exact .refl h
  · obtain ⟨h₁, h₁eq, h₂eq⟩ := bind_eq_ok.mp hu
    have a : RoutesOnly _ _ := routesOnly_modify.result h₁eq
    exact a.trans (routesOnly_modify.result h₂eq)

theorem routesOnly_linkSource (h : Hub) (dest src : ResRef) :
    Returns (linkSource h dest src) (RoutesOnly h) := by
  unfold linkSource
  refine routesOnly_modify.bind fun h₁ a => ?_
  exact routesOnly_modify.mono fun h₂ b => a.trans b

theorem routesOnly_moveSource (h : Hub) (src dest : ResRef) :
    Returns (moveSource h src dest) (RoutesOnly h) := by
  refine Returns.of_ok fun h' hm => ?_
  unfold moveSource at hm
  simp only [bind_eq_ok] at hm
  obtain ⟨x, hx, hm⟩ := hm
  split at hm
  · cases hm
    exact .refl h
  · obtain ⟨h₁, h₁eq, hm⟩ := bind_eq_ok.mp hm
    obtain ⟨h₂, h₂eq, h₃eq⟩ := bind_eq_ok.mp hm
    have a : RoutesOnly _ _ := routesOnly_modify.result h₁eq
    have b := routesOnly_modify.result h₂eq
    exact (a.trans b).trans (routesOnly_modify.result h₃eq)

theorem routesOnly_moveDests (src dest : ResRef) (dests : List ResRef) (h : Hub) :
    Returns (moveDests src dest h dests) (RoutesOnly h) := by
  induction dests generalizing h with
  | nil => exact .refl h
  | cons d rest ih =>
    unfold moveDests
    refine routesOnly_modify.bind fun h₁ a => ?_
    refine routesOnly_modify.bind fun h₂ b => ?_
    refine routesOnly_modify.bind fun h₃ c => ?_
    exact (ih h₃).mono fun h₄ d => ((a.trans b).trans c).trans d

theorem moveAdminSettings_frame (h : Hub) (src dest : ResRef) (et : EntryType) :
    Returns (resMoveAdminSettings P h src dest et) fun h' => ∃ s d,
      h.resources src = some s ∧ h.resources dest = some d ∧
      RoutesOnly ((h.setResource src s.emptied).setResource dest (moveValues P s d et)) h' := by
  refine Returns.of_ok fun h' hm => ?_
  unfold resMoveAdminSettings at hm
  simp only [bind_eq_ok, getResource_ok] at hm
  obtain ⟨s, hs, d, hd, h₁, h₁eq, s', _, hm⟩ := hm
  have a := (routesOnly_moveSource _ _ _).result h₁eq
  exact ⟨s, d, hs, hd, a.trans ((routesOnly_moveDests _ _ _ _).result hm)⟩

/-! ### Releasing a resource -/

theorem SameCore.refl (h : Hub) : SameCore h h :=
  ⟨rfl, rfl, rfl, rfl, Nat.le_refl _, rfl, rfl, rfl, rfl⟩

theorem SameCore.trans (a : SameCore h h') (b : SameCore h' h'') : SameCore h h'' :=
  ⟨b.entries.trans a.entries, b.resources.trans a.resources, b.nextEntry.trans a.nextEntry,
    b.nextRes.trans a.nextRes, Nat.le_trans a.nextRead b.nextRead, b.updating.trans a.updating,
    b.handlers.trans a.handlers, b.nextHandler.trans a.nextHandler,
    b.orphanTimers.trans a.orphanTimers⟩

theorem handlers_dropHandlers (l : List HandlerRef) (h : Hub) (p : HandlerRef) :
    (h.dropHandlers l).handlers p = if p ∈ l then none else h.handlers p := by
  induction l generalizing h with
  | nil => rfl
  | cons q l ih =>
    show ((h.setHandler q none).dropHandlers l).handlers p = _
    rw [ih]
    by_cases hq : p = q
    · subst hq
      simp [Hub.setHandler]
    · simp [Hub.setHandler, hq]

/-- Only the handlers change. -/
theorem dropHandlers_eq (l : List HandlerRef) (h : Hub) :
    h.dropHandlers l = { h with handlers := (h.dropHandlers l).handlers } := by
  induction l generalizing h with
  | nil => rfl
  | cons p l ih => exact ih (h.setHandler p none)

theorem backupTimer_of_notObservation (hno : ∀ o, x.cls ≠ .observation o) :
    x.backupTimer = false := by
  unfold Resource.backupTimer
  split
  · next o ho => exact absurd ho (hno o)
  · rfl

theorem destructObs_frame (h : Hub) (r : ResRef) (x : Resource) (o : Observation) :
    SameCore
        { h with orphanTimers := if o.backupTimer then r :: h.orphanTimers else h.orphanTimers }
        (destructObs P h r x o) ∧
      ∃ evs : List ObsEvent, (destructObs P h r x o).log = h.log ++ evs.map (Event.obs r) ∧
        Freed evs ∧ .destructing o.backupTimer ∈ evs := by
  have hfreed : Freed (.destructing o.backupTimer ::
      ((if 0 < o.backupPeriod then deleteBackup P (obsContext h x) else []) ++
      o.readOpList.map fun op => .readDone { op with nextEntryPtr := none } .commError)) := by
    intro ev hev
    rcases List.mem_cons.mp hev with rfl | hev
    · exact .inl ⟨_, rfl⟩
    rcases List.mem_append.mp hev with hev | hev
    · split at hev
      · unfold deleteBackup at hev
        split at hev
        · split at hev
          · exact .inr (.inl ⟨_, List.mem_singleton.mp hev⟩)
          · cases hev
        · cases hev
      · cases hev
    · obtain ⟨op, _, rfl⟩ := List.mem_map.mp hev
      exact .inr (.inr ⟨_, _, rfl⟩)
  unfold destructObs
  dsimp only
  split <;>
    exact ⟨⟨rfl, rfl, rfl, rfl, Nat.le_refl _, rfl, rfl, rfl, rfl⟩, _, rfl, hfreed,
      List.mem_cons_self⟩

theorem releaseResource_frame (h : Hub) (r : ResRef) :
    Returns (releaseResource P h r) fun h' => ∃ x evs,
      h.resources r = some x ∧ x.srcPtr = none ∧ x.destList = [] ∧
      SameCore (freed h r x) h' ∧ h'.log = h.log ++ evs.map (Event.obs r) ∧
      ((∀ o, x.cls ≠ .observation o) → evs = []) ∧ Freed evs ∧
      ∀ o, x.cls = .observation o → .destructing o.backupTimer ∈ evs := by
  refine Returns.of_ok fun h' hr => ?_
  unfold releaseResource at hr
  simp only [bind_eq_ok, getResource_ok] at hr
  obtain ⟨x, hx, hr⟩ := hr
  split at hr
  · cases hr
  · next hroutes =>
    obtain ⟨hsrc, hdest⟩ := not_or.mp hroutes
    cases hr
    refine ⟨x, ?_⟩
    have hfree : ∀ h₁ : Hub, SameCore { h with orphanTimers :=
          if x.backupTimer then r :: h.orphanTimers else h.orphanTimers } h₁ →
        SameCore (freed h r x) ((h₁.dropHandlers x.pushHandlerList).freeResource r) := by
      intro h₁ ha
      rw [dropHandlers_eq]
      refine ⟨ha.entries, ?_, ha.nextEntry, ha.nextRes, ha.nextRead, ha.updating, ?_,
        ha.nextHandler, ha.orphanTimers⟩
      · simp only [Hub.freeResource, freed, ha.resources]
      · funext p
        simp only [Hub.freeResource, freed, handlers_dropHandlers, ha.handlers]
    have hlog : ∀ h₁ : Hub,
        ((h₁.dropHandlers x.pushHandlerList).freeResource r).log = h₁.log := by
      intro h₁
      rw [dropHandlers_eq]
      rfl
    have hsrc' : x.srcPtr = none := by simpa using hsrc
    split
    · next o ho =>
      obtain ⟨ha, evs, hevs, hfreed, htimer⟩ := destructObs_frame (P := P) h r x o
      have hx' : x.backupTimer = o.backupTimer := by simp [Resource.backupTimer, ho]
      refine ⟨evs, hx, hsrc', not_not.mp hdest, hfree _ (by rw [hx']; exact ha),
        (hlog _).trans hevs, fun hno => absurd ho (hno o), hfreed, fun o' ho' => ?_⟩
      cases ho.symm.trans ho'
      exact htimer
    · next hno =>
      have hx' := backupTimer_of_notObservation hno
      refine ⟨[], hx, hsrc', not_not.mp hdest, hfree _ (by rw [hx']; exact .refl h),
        (hlog h).trans (List.append_nil _).symm, fun _ => rfl, ?_, fun o ho => absurd ho (hno o)⟩
      exact fun _ hev => absurd hev List.not_mem_nil

/-! ### Replacing a resource -/

/-- What `ReplaceResource` does to an entry that has no resource yet, or one that has. -/
structure Replaced (P : Platform) (h : Hub) (e : EntryRef) (y : Resource) (et : EntryType)
    (entry : Entry) (h' : Hub) : Prop where
  entries : h'.entries = Function.update h.entries e
    (some { entry with resourcePtr := some h.nextRes, type := et })
  nextEntry : h'.nextEntry = h.nextEntry
  nextRes : h'.nextRes = h.nextRes + 1
  nextRead : h.nextRead ≤ h'.nextRead
  updating : h'.isUpdateInProgress = h.isUpdateInProgress
  handlers : h'.handlers = h.handlers
  nextHandler : h'.nextHandler = h.nextHandler
  attach : entry.resourcePtr = none →
    h'.resources = Function.update h.resources h.nextRes (some y) ∧
    h'.log = h.log ++ [.attaching e entry h.nextRes et y] ∧ h'.orphanTimers = h.orphanTimers
  move : ∀ old, entry.resourcePtr = some old → ∃ x evs,
    Function.update h.resources h.nextRes (some y) old = some x ∧
    (∀ q, (h'.resources q).map Resource.unrouted =
      (Function.update (Function.update h.resources h.nextRes (some (moveValues P x y et))) old none
        q).map Resource.unrouted) ∧
    h'.log = h.log ++ .replacing old h.nextRes x et y :: evs.map (Event.obs old) ∧
    ((∀ o, x.cls ≠ .observation o) → evs = [] ∧ h'.orphanTimers = h.orphanTimers)

theorem replaceResource_frame (h : Hub) (e : EntryRef) (y : Resource) (et : EntryType)
    (hlt : ∀ entry old, h.entries e = some entry → entry.resourcePtr = some old →
      old ≠ h.nextRes) :
    Returns (replaceResource P h e y et) fun r =>
      r.2 = h.nextRes ∧ ∃ entry, h.entries e = some entry ∧ Replaced P h e y et entry r.1 := by
  refine Returns.of_ok fun res hr => ?_
  unfold replaceResource at hr
  simp only [bind_eq_ok, getEntry_ok, modifyEntry_ok] at hr
  obtain ⟨entry, he, h₁, hd, h₂, ⟨entry', he', rfl⟩, hres⟩ := hr
  cases hres
  refine ⟨rfl, entry, he, ?_⟩
  unfold replaceResource.dispose at hd
  split at hd
  · next hnone =>
    cases hd
    have hentry : entry' = entry := Option.some.inj (he'.symm.trans he)
    subst hentry
    exact ⟨rfl, rfl, rfl, Nat.le_refl _, rfl, rfl, rfl, fun _ => ⟨rfl, rfl, rfl⟩, by simp [hnone]⟩
  · next old hold =>
    simp only [bind_eq_ok, getResource_ok] at hd
    obtain ⟨x, hx, h₃, hm, hrel⟩ := hd
    obtain ⟨s, d, hs, hdd, ha⟩ := (moveAdminSettings_frame _ _ _ _).result hm
    obtain ⟨z, evs, hz, _, _, hb, hlog, hno, _, _⟩ := (releaseResource_frame _ _).result hrel
    have hs' : s = x := Option.some.inj (hs.symm.trans hx)
    subst hs'
    have hne : h.nextRes ≠ old := (hlt entry old he hold).symm
    have hd' : d = y := by
      simp only [Hub.emit, Hub.setResource, Function.update_self] at hdd
      exact (Option.some.inj hdd).symm
    subst hd'
    have hzu : z.unrouted = s.emptied.unrouted := by
      have hq := ha.resources old
      rw [hz] at hq
      simpa [Hub.setResource, Hub.emit, Function.update_of_ne hne.symm] using hq
    have hzhandlers : z.pushHandlerList = [] :=
      show z.unrouted.pushHandlerList = _ by rw [hzu]; rfl
    have hhandlers : (freed h₃ old z).handlers = h₃.handlers := by simp [freed, hzhandlers]
    have hentries : h₁.entries = h.entries := hb.entries.trans ha.entries
    have hentry : entry' = entry := by
      rw [hentries] at he'
      exact Option.some.inj (he'.symm.trans he)
    subst hentry
    have hzcls : z.cls = s.cls := show z.unrouted.cls = _ by rw [hzu]; rfl
    refine ⟨?_, hb.nextEntry.trans ha.nextEntry, hb.nextRes.trans ha.nextRes, ?_,
      hb.updating.trans ha.updating, hb.handlers.trans (hhandlers.trans ha.handlers),
      hb.nextHandler.trans ha.nextHandler, by simp [hold], ?_⟩
    · show Function.update h₁.entries e _ = _
      rw [hentries]
    · have hread : h₃.nextRead = h.nextRead := ha.nextRead
      have := hb.nextRead
      show h.nextRead ≤ h₁.nextRead
      exact hread ▸ this
    · intro old' hold'
      have holds : old' = old := Option.some.inj (hold'.symm.trans hold)
      subst holds
      refine ⟨s, evs, hx, ?_, ?_, fun hs => ?_⟩
      · intro q
        show (h₁.resources q).map _ = _
        rw [hb.resources]
        by_cases hq : q = old'
        · subst hq
          simp [freed]
        · have hqr := ha.resources q
          simp only [freed, Function.update_of_ne hq]
          rw [hqr]
          by_cases hqn : q = h.nextRes
          · subst hqn
            simp [Hub.setResource]
          · simp [Hub.setResource, Hub.emit, hqn, hq]
      · show h₁.log = _
        rw [hlog, ha.log]
        simp [Hub.setResource, Hub.emit]
      · have hz' : ∀ o, z.cls ≠ .observation o := by rwa [hzcls]
        have htimers : (freed h₃ old' z).orphanTimers = h₃.orphanTimers := by
          simp [freed, backupTimer_of_notObservation hz']
        exact ⟨hno hz', hb.orphanTimers.trans (htimers.trans ha.orphanTimers)⟩

/-! ### Entries -/

theorem addChild_frame (h : Hub) (parent : EntryRef) (name : CString) :
    Returns (addChild P h parent name) fun r => ∃ p, h.entries parent = some p ∧
      r.2 = h.nextEntry ∧
      r.1 = { h with
        entries := Function.update
          (Function.update h.entries parent (some { p with
            refCount := p.refCount + 1, childList := p.childList ++ [h.nextEntry] }))
          h.nextEntry (some {
            parentPtr := some parent, name := leUtf8Copy P (hubMaxEntryNameBytes P) name,
            childList := [], type := .nameSpace, resourcePtr := none, refCount := 1 })
        nextEntry := h.nextEntry + 1 } := by
  refine Returns.of_ok fun r ha => ?_
  unfold addChild at ha
  simp only [bind_eq_ok, modifyEntry_ok] at ha
  obtain ⟨h₁, ⟨p, hp, rfl⟩, hr⟩ := ha
  cases hr
  exact ⟨p, hp, rfl, rfl⟩

/-- Entries have been released; those that carry a resource are still there. -/
structure EntriesReleased (h h' : Hub) : Prop where
  resources : h'.resources = h.resources
  nextEntry : h'.nextEntry = h.nextEntry
  nextRes : h'.nextRes = h.nextRes
  nextRead : h'.nextRead = h.nextRead
  updating : h'.isUpdateInProgress = h.isUpdateInProgress
  log : h'.log = h.log
  handlers : h'.handlers = h.handlers
  nextHandler : h'.nextHandler = h.nextHandler
  orphanTimers : h'.orphanTimers = h.orphanTimers
  sessions : h'.sessions = h.sessions
  kept : ∀ q entry', h'.entries q = some entry' → ∃ entry, h.entries q = some entry ∧
    entry'.type = entry.type ∧ entry'.resourcePtr = entry.resourcePtr
  attached : ∀ q entry, h.entries q = some entry → entry.resourcePtr.isSome →
    ∃ entry', h'.entries q = some entry' ∧ entry'.type = entry.type ∧
      entry'.resourcePtr = entry.resourcePtr

theorem EntriesReleased.trans (a : EntriesReleased h h') (b : EntriesReleased h' h'') :
    EntriesReleased h h'' := by
  refine ⟨b.resources.trans a.resources, b.nextEntry.trans a.nextEntry, b.nextRes.trans a.nextRes,
    b.nextRead.trans a.nextRead, b.updating.trans a.updating, b.log.trans a.log,
    b.handlers.trans a.handlers, b.nextHandler.trans a.nextHandler,
    b.orphanTimers.trans a.orphanTimers, b.sessions.trans a.sessions, ?_, ?_⟩
  · intro q entry'' hq
    obtain ⟨entry', hq', ht', hr'⟩ := b.kept q entry'' hq
    obtain ⟨entry, hq₀, ht, hr⟩ := a.kept q entry' hq'
    exact ⟨entry, hq₀, ht'.trans ht, hr'.trans hr⟩
  · intro q entry hq hsome
    obtain ⟨entry', hq', ht, hr⟩ := a.attached q entry hq hsome
    obtain ⟨entry'', hq'', ht', hr'⟩ := b.attached q entry' hq' (by rwa [hr])
    exact ⟨entry'', hq'', ht'.trans ht, hr'.trans hr⟩

/-- An entry is changed in a way that its type and its resource do not notice. -/
theorem entriesReleased_setEntry {entry entry' : Entry} (he : h.entries e = some entry)
    (ht : entry'.type = entry.type) (hr : entry'.resourcePtr = entry.resourcePtr) :
    EntriesReleased h (h.setEntry e entry') := by
  refine ⟨rfl, rfl, rfl, rfl, rfl, rfl, rfl, rfl, rfl, rfl, ?_, ?_⟩
  · intro q entry₁ hq
    by_cases hqe : q = e
    · subst hqe
      simp only [Hub.setEntry, Function.update_self, Option.some.injEq] at hq
      subst hq
      exact ⟨entry, he, ht, hr⟩
    · simp only [Hub.setEntry, Function.update_of_ne hqe] at hq
      exact ⟨entry₁, hq, rfl, rfl⟩
  · intro q entry₁ hq _
    by_cases hqe : q = e
    · subst hqe
      cases he.symm.trans hq
      exact ⟨entry', by simp [Hub.setEntry], ht, hr⟩
    · exact ⟨entry₁, by simpa [Hub.setEntry, hqe] using hq, rfl, rfl⟩

theorem entriesReleased_freeEntry {entry : Entry} (he : h.entries e = some entry)
    (hr : entry.resourcePtr = none) : EntriesReleased h (h.freeEntry e) := by
  refine ⟨rfl, rfl, rfl, rfl, rfl, rfl, rfl, rfl, rfl, rfl, ?_, ?_⟩
  · intro q entry₁ hq
    by_cases hqe : q = e
    · subst hqe
      simp [Hub.freeEntry] at hq
    · simp only [Hub.freeEntry, Function.update_of_ne hqe] at hq
      exact ⟨entry₁, hq, rfl, rfl⟩
  · intro q entry₁ hq hsome
    by_cases hqe : q = e
    · subst hqe
      cases he.symm.trans hq
      simp [hr] at hsome
    · exact ⟨entry₁, by simpa [Hub.freeEntry, hqe] using hq, rfl, rfl⟩

theorem releaseEntry_frame (fuel : Nat) (h : Hub) (e : EntryRef) :
    Returns (releaseEntry fuel h e) (EntriesReleased h) := by
  induction fuel generalizing h e with
  | zero => simp [releaseEntry]
  | succ fuel ih =>
    refine Returns.of_ok fun h' hr => ?_
    unfold releaseEntry at hr
    simp only [bind_eq_ok, getEntry_ok] at hr
    obtain ⟨entry, he, hr⟩ := hr
    split at hr
    · cases hr
      exact entriesReleased_setEntry he rfl rfl
    · split at hr
      · cases hr
      · split at hr
        · cases hr
        · next parent _ hassert =>
          obtain ⟨h₁, hm, hrel⟩ := bind_eq_ok.mp hr
          obtain ⟨p, hp, rfl⟩ := modifyEntry_ok.mp hm
          have hnone : entry.resourcePtr = none := by
            cases hres : entry.resourcePtr with
            | none => rfl
            | some r => simp [hres] at hassert
          have a : EntriesReleased h
              (h.setEntry parent { p with childList := p.childList.erase e }) :=
            entriesReleased_setEntry hp rfl rfl
          obtain ⟨entry₁, he₁, hr₁⟩ : ∃ entry₁, (h.setEntry parent
              { p with childList := p.childList.erase e }).entries e = some entry₁ ∧
              entry₁.resourcePtr = none := by
            by_cases hpe : e = parent
            · subst hpe
              cases he.symm.trans hp
              exact ⟨{ entry with childList := entry.childList.erase e },
                by simp [Hub.setEntry], hnone⟩
            · exact ⟨entry, by simpa [Hub.setEntry, hpe] using he, hnone⟩
          exact (a.trans (entriesReleased_freeEntry he₁ hr₁)).trans ((ih _ _).result hrel)

end MangOH.DataHub
