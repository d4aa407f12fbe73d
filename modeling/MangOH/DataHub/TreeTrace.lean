import MangOH.DataHub.Teardown

/-! Creating, replacing and deleting entries and resources is made of atomic changes. -/
namespace MangOH.DataHub

open Outcome

variable {P : Platform} {b h h' h'' : Hub} {r : ResRef} {e : EntryRef} {x y : Resource}
  {entry : Entry} {et : EntryType}

/-- The faults that even operations that release entries are free of. -/
def Confusion (f : Fault) : Prop := f = .typeConfusion ∨ f = .routeAssertion

theorem bad_of_confusion (f : Fault) (hf : Confusion f) : Bad f := by
  rcases hf with rfl | rfl <;> exact trivial

/-! ### Finding and creating entries -/

theorem splitPath_names (path : CString) :
    ∀ name ∈ splitPath path, 0x2f ∉ name ∧ ∀ c ∈ name, c ∈ path := by
  induction path with
  | nil => simp [splitPath]
  | cons c rest ih =>
    intro name hname
    unfold splitPath at hname
    split at hname
    · rcases List.mem_cons.mp hname with rfl | hname
      · simp
      · exact ⟨(ih name hname).1, fun c hc => List.mem_cons_of_mem _ ((ih name hname).2 c hc)⟩
    · next hc =>
      split at hname
      · next first names heq =>
        rw [heq] at ih
        rcases List.mem_cons.mp hname with rfl | hname
        · obtain ⟨hslash, hmem⟩ := ih first List.mem_cons_self
          refine ⟨fun h => ?_, fun d hd => ?_⟩
          · rcases List.mem_cons.mp h with rfl | h
            · exact hc rfl
            · exact hslash h
          · rcases List.mem_cons.mp hd with rfl | hd
            · exact List.mem_cons_self
            · exact List.mem_cons_of_mem _ (hmem d hd)
        · obtain ⟨hslash, hmem⟩ := ih name (List.mem_cons_of_mem _ hname)
          exact ⟨hslash, fun d hd => List.mem_cons_of_mem _ (hmem d hd)⟩
      · rcases List.mem_singleton.mp hname with rfl
        exact ⟨by simpa using fun h => hc h.symm, by simp⟩

/-- The names in a path that `GoToEntry` does not refuse at once are made of legal characters. -/
theorem pathElements_names {path : CString} (hpath : path.any isIllegal = false) :
    ∀ name ∈ pathElements path, 0x2f ∉ name ∧ ∀ c ∈ name, isIllegal c = false := by
  have hlegal : ∀ c ∈ path, isIllegal c = false := by simpa using hpath
  intro name hname
  cases path with
  | nil => cases hname
  | cons c rest =>
    obtain ⟨hslash, hmem⟩ := splitPath_names _ name hname
    refine ⟨hslash, fun d hd => hlegal d ?_⟩
    have hd' := hmem d hd
    split at hd'
    · exact List.mem_cons_of_mem _ hd'
    · exact hd'

theorem Ext.addChild (he : Ext P b h) (parent : EntryRef) {name : CString}
    (hname : LegalName P name) (hnew : resTreeFindChild h parent name = .ok none) :
    Sat Bad (addChild P h parent name) fun p => Ext P b p.1 := by
  have hbad : Sat Bad (DataHub.addChild P h parent name) fun _ => True := by
    unfold DataHub.addChild Hub.modifyEntry
    refine Sat.bind (Q := fun _ => True) ?_ fun _ _ => trivial
    exact (sat_getEntry h parent).bind fun _ _ => trivial
  refine hbad.and_result.mono ?_
  rintro ⟨h', c⟩ ⟨_, hc⟩
  obtain ⟨_, _, _, hh⟩ := (addChild_frame h parent name).result hc
  dsimp only at hh
  exact he.step (.addChild parent name hc hname hnew) (settled_same (by rw [hh]))

theorem sat_search (h : Hub) (name : CString) (l : List EntryRef) :
    Sat Bad (resTreeFindChild.search h name l) fun _ => True := by
  induction l with
  | nil => exact trivial
  | cons c rest ih =>
    unfold resTreeFindChild.search
    refine (sat_getEntry h c).bind fun child _ => ?_
    split
    · exact trivial
    · exact ih

theorem sat_resTreeFindChild (h : Hub) (ns : EntryRef) (name : CString) :
    Sat Bad (resTreeFindChild h ns name) fun _ => True :=
  (sat_getEntry h ns).bind fun _ _ => sat_search h name _

/-- Only a walk that creates entries changes the hub. -/
theorem sat_walk (doCreate : Bool) {names : List CString}
    (hnames : ∀ name ∈ names, 0x2f ∉ name ∧ ∀ c ∈ name, isIllegal c = false) (he : Ext P b h)
    (e : EntryRef) :
    Sat Bad (walk P doCreate names h e) fun p => Ext P b p.1 ∧ (doCreate = false → p.1 = h) := by
  induction names generalizing h e with
  | nil => exact ⟨he, fun _ => rfl⟩
  | cons name names ih =>
    unfold walk
    have hrest := fun name hname => hnames name (List.mem_cons_of_mem _ hname)
    split
    · exact ⟨he, fun _ => rfl⟩
    · next hlen =>
      refine (sat_resTreeFindChild h e name).and_result.bind ?_
      rintro found ⟨_, hfound⟩
      cases found with
      | some child => exact ih hrest he child
      | none =>
        cases doCreate with
        | false => exact ⟨he, fun _ => rfl⟩
        | true =>
          have hname : LegalName P name :=
            ⟨fun h => hlen (.inl h), Nat.lt_of_not_le fun h => hlen (.inr h),
              hnames name List.mem_cons_self⟩
          refine (he.addChild e hname hfound).bind fun p hp => ?_
          exact (ih hrest hp p.2).mono fun q hq => ⟨hq.1, by simp⟩

theorem sat_goToEntry (he : Ext P b h) (base : EntryRef) (path : CString) (doCreate : Bool) :
    Sat Bad (goToEntry P h base path doCreate) fun p =>
      Ext P b p.1 ∧ (doCreate = false → p.1 = h) := by
  unfold goToEntry
  split
  · exact ⟨he, fun _ => rfl⟩
  · next hpath => exact sat_walk doCreate (pathElements_names (by simpa using hpath)) he base

theorem sat_resTreeFindEntry (he : Ext P b h) (base : EntryRef) (path : CString) :
    Sat Bad (resTreeFindEntry P h base path) fun _ => True :=
  (sat_goToEntry he base path false).bind fun _ _ => trivial

theorem sat_resTreeGetEntry (he : Ext P b h) (base : EntryRef) (path : CString) :
    Sat Bad (resTreeGetEntry P h base path) fun p => Ext P b p.1 :=
  (sat_goToEntry he base path true).mono fun _ hp => hp.1

theorem sat_resTreeFindEntryAtAbsolutePath (he : Ext P b h) (path : CString) :
    Sat Bad (resTreeFindEntryAtAbsolutePath P h path) fun _ => True := by
  unfold resTreeFindEntryAtAbsolutePath
  split
  · exact sat_resTreeFindEntry he rootPtr _
  · exact trivial

/-! ### Notifications -/

theorem sat_getAbsolutePath (h : Hub) (size fuel : Nat) (e : EntryRef) :
    Sat Bad (getAbsolutePath P h size fuel e) fun _ => True := by
  induction fuel generalizing e with
  | zero => exact id
  | succ fuel ih =>
    unfold getAbsolutePath
    split
    · exact trivial
    · refine (sat_getEntry h e).bind fun entry _ => ?_
      split
      · exact id
      · refine (ih _).bind fun above _ => ?_
        split <;> exact trivial

/-- The tree stays as it is when handlers are notified. -/
theorem Ext.treeChange (he : Ext P b h) (e : EntryRef) (et : EntryType)
    (operation : ResourceOperation) :
    Sat Bad (callResourceTreeChangeHandlers P h e et operation) fun h' =>
      Ext P b h' ∧ ∃ path, h' = h.emit (.treeChange path et operation) := by
  unfold callResourceTreeChangeHandlers
  refine (sat_getAbsolutePath h _ _ e).bind fun path _ => ⟨?_, path.1, rfl⟩
  have hplain : ∀ ev ∈ [Event.treeChange path.1 et operation], ev.isPlain = true := by
    simp [Event.isPlain]
  exact he.notes (.treeChange path.1 et operation) (answered_of_plain hplain)

/-! ### Replacing a resource -/

/-- A resource can be freed when it has no routes. -/
theorem sat_releaseResource (hsrc : h.links.src r = none) (hdest : h.links.dests r = []) :
    Sat Bad (releaseResource P h r) fun _ => True := by
  unfold releaseResource
  refine (sat_getResource h r).bind fun x hx => ?_
  rw [src_of_resource hx] at hsrc
  rw [dests_of_resource hx] at hdest
  simp [hsrc, hdest]

theorem sat_moveSource (h : Hub) (src dest : ResRef) :
    Sat Bad (moveSource h src dest) fun _ => True := by
  unfold moveSource
  refine (sat_getResource h src).bind fun x _ => ?_
  split
  · exact trivial
  · refine (sat_modify _ _ _).bind fun _ _ => ?_
    exact (sat_modify _ _ _).bind fun _ _ => sat_modify _ _ _

theorem sat_moveDests (src dest : ResRef) (dests : List ResRef) (h : Hub) :
    Sat Bad (moveDests src dest h dests) fun _ => True := by
  induction dests generalizing h with
  | nil => exact trivial
  | cons d rest ih =>
    unfold moveDests
    refine (sat_modify _ _ _).bind fun _ _ => ?_
    refine (sat_modify _ _ _).bind fun _ _ => ?_
    exact (sat_modify _ _ _).bind fun h₃ _ => ih h₃

theorem sat_moveAdminSettings (h : Hub) (src dest : ResRef) (et : EntryType) :
    Sat Bad (resMoveAdminSettings P h src dest et) fun _ => True := by
  unfold resMoveAdminSettings
  refine (sat_getResource _ _).bind fun s _ => ?_
  refine (sat_getResource _ _).bind fun d _ => ?_
  refine (sat_moveSource _ _ _).bind fun h₁ _ => ?_
  exact (sat_getResource _ _).bind fun _ _ => sat_moveDests _ _ _ _

theorem sat_replaceResource (hwf : WellFormed h) (hy : Created P e et y) :
    Sat Bad (replaceResource P h e y et) fun _ => True := by
  unfold replaceResource
  refine (sat_getEntry h e).bind fun entry hentry => ?_
  refine Sat.bind (Q := fun _ => True) ?_ fun h₁ _ => ?_
  · unfold replaceResource.dispose
    split
    · exact trivial
    · next old hold =>
      obtain ⟨x', hx', _⟩ := hwf.resourceOf e entry old hentry hold
      have hne := hwf.ne_nextRes hx'
      obtain ⟨_, hsrc, hdest, _⟩ := Links.takeOver_spec hwf.routes hne hwf.src_nextRes
      refine (sat_getResource _ _).bind fun x _ => ?_
      refine (sat_moveAdminSettings _ _ _ _).and_result.bind ?_
      rintro h₂ ⟨_, hm⟩
      rw [← (links_moveToCreated hwf hy hne _).result hm] at hsrc hdest
      exact sat_releaseResource hsrc hdest
  · unfold Hub.modifyEntry
    refine Sat.bind (Q := fun _ => True) ?_ fun _ _ => trivial
    exact (sat_getEntry _ _).bind fun _ _ => trivial

theorem Ext.replace (he : Ext P b h) (hentry : h.entries e = some entry)
    (hre : Replaceable entry.type et) (hy : Created P e et y) :
    Sat Bad (replaceResource P h e y et) fun p =>
      Ext P b p.1 ∧ p.2 = h.nextRes ∧ Replaced P h e y et entry p.1 := by
  refine (sat_replaceResource he.wf hy).and_result.mono ?_
  rintro ⟨h', new⟩ ⟨_, hr⟩
  have hrep := replaceResource_replaced he.wf hentry hr
  refine ⟨he.step (.replace hentry hre hy hr) ?_, hrep⟩
  cases hold : entry.resourcePtr with
  | none => exact settled_plain (hrep.2.attach hold).2.1 (by simp [Event.isPlain])
  | some old =>
    obtain ⟨x, evs, _, _, hlog, _⟩ := hrep.2.move old hold
    exact settled_plain hlog (by simp [Event.isPlain])

theorem sat_resTreeGetResource (he : Ext P b h) (base : EntryRef) (path : CString) :
    Sat Bad (resTreeGetResource P h base path) fun p => Ext P b p.1 := by
  unfold resTreeGetResource
  refine (sat_goToEntry he base path true).bind ?_
  rintro ⟨h₁, found⟩ ⟨he₁, _⟩
  cases found with
  | none => exact he₁
  | some e =>
    refine (sat_getEntry h₁ e).bind fun entry hentry => ?_
    split
    · next ht =>
      have hre : Replaceable entry.type .placeholder := by
        rw [ht]
        exact .nameSpace _
      exact (he₁.replace hentry hre .placeholder).bind fun p hp => hp.1
    · exact he₁

theorem sat_getIo {create : EntryRef → Resource} (hc : ∀ e, Created P e et (create e))
    (he : Ext P b h) (base : EntryRef) (path : CString) :
    Sat Bad (getIo P create et h base path) fun p => Ext P b p.1 := by
  unfold getIo
  refine (sat_goToEntry he base path true).bind ?_
  rintro ⟨h₁, found⟩ ⟨he₁, _⟩
  cases found with
  | none => exact he₁
  | some e =>
    refine (sat_getEntry h₁ e).bind fun entry hentry => ?_
    have hreplace : Replaceable entry.type et →
        Sat Bad (do
          let added ← replaceResource P h₁ e (create e) et
          let h ← callResourceTreeChangeHandlers P added.1 e et .added
          pure (h, some e)) fun p => Ext P b p.1 :=
      fun hre => (he₁.replace hentry hre (hc e)).bind fun p hp =>
        (hp.1.treeChange e et .added).bind fun h₃ he₃ => he₃.1
    split
    · next ht => exact hreplace (ht ▸ .nameSpace _)
    · next ht => exact hreplace (ht ▸ .placeholder _)
    all_goals exact he₁

theorem sat_resTreeGetInput (he : Ext P b h) (base : EntryRef) (path : CString) (t : DataType)
    (units : CString) : Sat Bad (resTreeGetInput P h base path t units) fun p => Ext P b p.1 :=
  sat_getIo (fun _ => .input t units) he base path

theorem sat_resTreeGetOutput (he : Ext P b h) (base : EntryRef) (path : CString) (t : DataType)
    (units : CString) : Sat Bad (resTreeGetOutput P h base path t units) fun p => Ext P b p.1 :=
  sat_getIo (fun _ => .output t units) he base path

/-- The resource that has just replaced another one is of the class it was created with. -/
theorem replaced_new (hwf : WellFormed h) (hentry : h.entries e = some entry)
    (hr : Replaced P h e y et entry h') :
    ∃ z, h'.resources h.nextRes = some z ∧ z.cls = y.cls := by
  cases hold : entry.resourcePtr with
  | none => exact ⟨y, by simp [(hr.attach hold).1], rfl⟩
  | some old =>
    obtain ⟨x, evs, _, hres, _⟩ := hr.move old hold
    obtain ⟨x', hx', _⟩ := hwf.resourceOf e entry old hentry hold
    have hq := hres h.nextRes
    rw [Function.update_of_ne (hwf.ne_nextRes hx').symm, Function.update_self] at hq
    obtain ⟨z, hz, hzu⟩ := exists_of_map_unrouted hq.symm rfl
    have hcls : (moveValues P x y et).cls = z.cls :=
      show (moveValues P x y et).unrouted.cls = z.unrouted.cls from congrArg Resource.cls hzu
    exact ⟨z, hz, by rw [← hcls, cls_moveValues]⟩

theorem sat_resTreeGetObservation (fuel : Nat) (he : Ext P b h) (base : EntryRef)
    (path : CString) : Sat Bad (resTreeGetObservation P fuel h base path) fun p => Ext P b p.1 := by
  unfold resTreeGetObservation
  refine (sat_goToEntry he base path true).bind ?_
  rintro ⟨h₁, found⟩ ⟨he₁, _⟩
  cases found with
  | none => exact he₁
  | some e =>
    refine (sat_getEntry h₁ e).bind fun entry hentry => ?_
    have hreplace : Replaceable entry.type .observation →
        Sat Bad (do
          let added ← replaceResource P h₁ e (resCreateObservation e) .observation
          let h ← resRestoreBackup P fuel added.1 added.2
          let h ← callResourceTreeChangeHandlers P h e .observation .added
          pure (h, some e)) fun p => Ext P b p.1 := by
      intro hre
      refine (he₁.replace hentry hre .observation).bind ?_
      rintro ⟨h₂, r⟩ ⟨he₂, hr, hrep⟩
      dsimp only at he₂ hr hrep
      subst hr
      obtain ⟨z, hz, hcls⟩ := replaced_new he₁.wf hentry hrep
      refine (sat_resRestoreBackup fuel he₂ hz hcls).bind fun h₃ he₃ => ?_
      exact (he₃.treeChange e .observation .added).bind fun h₄ he₄ => he₄.1
    split
    · next ht => exact hreplace (ht ▸ .nameSpace _)
    · next ht => exact hreplace (ht ▸ .placeholder _)
    all_goals exact he₁

theorem sat_attachedTo (h : Hub) (e : EntryRef) :
    Sat Bad (attachedTo h e) fun r =>
      ∃ entry, h.entries e = some entry ∧ entry.resourcePtr = some r := by
  unfold attachedTo
  refine (sat_getEntry h e).bind fun entry he => ?_
  split
  · next r hr => exact ⟨entry, he, hr⟩
  · exact id

/-! ### Deleting a resource -/

/-- The entries, and where each resource belongs, stay as they are. -/
structure SamePlaces (h h' : Hub) : Prop where
  entries : h'.entries = h.entries
  places : ∀ q, (h'.resources q).map (·.entryRef) = (h.resources q).map (·.entryRef)

theorem SamePlaces.refl (h : Hub) : SamePlaces h h := ⟨rfl, fun _ => rfl⟩

theorem SamePlaces.trans (a : SamePlaces h h') (b : SamePlaces h' h'') : SamePlaces h h'' :=
  ⟨b.entries.trans a.entries, fun q => (b.places q).trans (a.places q)⟩

theorem RoutesOnly.samePlaces (a : RoutesOnly h h') : SamePlaces h h' := by
  refine ⟨a.entries, fun q => ?_⟩
  have := congrArg (Option.map Resource.entryRef) (a.resources q)
  simpa [Function.comp_def, Resource.unrouted] using this

theorem samePlaces_clearUnits (h : Hub) (dest : ResRef) :
    Returns (clearUnits P h dest) (SamePlaces h) := by
  refine Returns.of_ok fun h' hc => ?_
  unfold clearUnits at hc
  simp only [bind_eq_ok, getResource_ok] at hc
  obtain ⟨d, hd, et, _, hc⟩ := hc
  split at hc
  · cases hc
    refine ⟨rfl, fun q => ?_⟩
    by_cases hq : q = dest
    · subst hq
      simp [Hub.setResource, hd, setUnits]
    · simp [Hub.setResource, hq]
  · cases hc
    exact .refl h

theorem samePlaces_removeSource (fuel : Nat) (h : Hub) (dest : ResRef) :
    Returns (resSetSource P fuel h dest none) fun p => SamePlaces h p.1 := by
  refine Returns.of_ok fun p hp => ?_
  unfold resSetSource at hp
  simp only [bind_eq_ok] at hp
  obtain ⟨d, _, hp⟩ := hp
  split at hp
  · cases hp
    exact .refl h
  · simp only [bind_eq_ok] at hp
    obtain ⟨h₁, hu, h₂, hc, hp⟩ := hp
    cases hp
    have a := ((routesOnly_unlinkSource h dest).result hu).samePlaces
    have b := (samePlaces_clearUnits h₁ dest).result hc
    exact ⟨(a.trans b).entries, (a.trans b).places⟩

theorem samePlaces_dropDestinations (fuel : Nat) (h : Hub) (r : ResRef) :
    Returns (dropDestinations P fuel h r) (SamePlaces h) := by
  induction fuel generalizing h with
  | zero => simp [dropDestinations]
  | succ fuel ih =>
    refine Returns.of_ok fun h' hd => ?_
    unfold dropDestinations at hd
    simp only [bind_eq_ok] at hd
    obtain ⟨x, _, hd⟩ := hd
    split at hd
    · cases hd
      exact .refl h
    · simp only [bind_eq_ok] at hd
      obtain ⟨p, hp, hd⟩ := hd
      exact ((samePlaces_removeSource fuel h _).result hp).trans ((ih p.1).result hd)

theorem sat_dropDestinations (fuel : Nat) (he : Ext P b h) (r : ResRef) :
    Sat Bad (dropDestinations P fuel h r) (Ext P b) := by
  induction fuel generalizing h with
  | zero => exact id
  | succ fuel ih =>
    unfold dropDestinations
    refine (sat_getResource h r).bind fun x _ => ?_
    split
    · exact he
    · exact (sat_resSetSource fuel he _ none).bind fun p hp => ih hp

theorem sat_unroute (fuel : Nat) (he : Ext P b h) (r : ResRef) :
    Sat Bad (unroute P fuel h r) fun h' => Ext P b h' ∧ SamePlaces h h' := by
  unfold unroute
  refine (sat_resSetSource fuel he r none).and_result.bind ?_
  rintro p ⟨he₁, hp⟩
  refine (sat_dropDestinations fuel he₁ r).and_result.mono ?_
  rintro h₂ ⟨he₂, hd⟩
  exact ⟨he₂, ((samePlaces_removeSource fuel h r).result hp).trans
    ((samePlaces_dropDestinations fuel p.1 r).result hd)⟩

theorem links_removeSource (fuel : Nat) (h : Hub) (dest : ResRef) :
    Returns (resSetSource P fuel h dest none) fun p => p.1.links = h.links.unlink dest := by
  refine Returns.of_ok fun p hp => ?_
  unfold resSetSource at hp
  obtain ⟨d, hd, hp⟩ := bind_eq_ok.mp hp
  split at hp
  · next hnone =>
    cases hp
    have hsrc := (src_of_resource (getResource_ok.mp hd)).trans hnone
    simp [Links.unlink, hsrc]
  · obtain ⟨h₁, hu, hp⟩ := bind_eq_ok.mp hp
    obtain ⟨h₂, hc, hp⟩ := bind_eq_ok.mp hp
    cases hp
    rw [← (links_unlinkSource h dest).result hu]
    unfold clearUnits at hc
    obtain ⟨d₁, hd₁, hc⟩ := bind_eq_ok.mp hc
    obtain ⟨et, _, hc⟩ := bind_eq_ok.mp hc
    split at hc
    · cases hc
      exact links_sameEnds (getResource_ok.mp hd₁) rfl rfl
    · cases hc
      rfl

theorem routeless_dropDestinations (fuel : Nat) (hsrc : h.links.src r = none) :
    Returns (dropDestinations P fuel h r) fun h' =>
      h'.links.src r = none ∧ h'.links.dests r = [] := by
  induction fuel generalizing h with
  | zero => exact id
  | succ fuel ih =>
    refine Returns.of_ok fun h' hd => ?_
    unfold dropDestinations at hd
    obtain ⟨x, hx, hd⟩ := bind_eq_ok.mp hd
    split at hd
    · next hnil =>
      cases hd
      exact ⟨hsrc, (dests_of_resource (getResource_ok.mp hx)).trans hnil⟩
    · next dest _ _ =>
      obtain ⟨p, hp, hd⟩ := bind_eq_ok.mp hd
      refine (ih ?_).result hd
      rw [(links_removeSource fuel h dest).result hp, Links.src_unlink, hsrc]
      split <;> rfl

/-- A resource that is about to be freed has lost all its routes. -/
theorem routeless_unroute (fuel : Nat) (h : Hub) (r : ResRef) :
    Returns (unroute P fuel h r) fun h' => h'.links.src r = none ∧ h'.links.dests r = [] := by
  refine Returns.of_ok fun h' hu => ?_
  obtain ⟨p, hp, hd⟩ := bind_eq_ok.mp hu
  refine (routeless_dropDestinations fuel ?_).result hd
  rw [(links_removeSource fuel h r).result hp, Links.src_unlink, if_pos rfl]

theorem sat_releaseEntry (fuel : Nat) (h : Hub) (e : EntryRef) :
    Sat Confusion (releaseEntry fuel h e) fun _ => True := by
  induction fuel generalizing h e with
  | zero => simp [releaseEntry, Confusion]
  | succ fuel ih =>
    unfold releaseEntry
    refine ((sat_getEntry h e).weaken bad_of_confusion).bind fun entry _ => ?_
    split
    · exact trivial
    · split
      · simp [Confusion]
      · split
        · simp [Confusion]
        · refine Sat.bind (Q := fun _ => True) ?_ fun h₁ _ => ih _ _
          unfold Hub.modifyEntry
          exact ((sat_getEntry _ _).weaken bad_of_confusion).bind fun _ _ => trivial

/-- The last steps of both deletion paths. -/
theorem sat_remove {evs : List ObsEvent} {h₁ : Hub} (he : Ext P b h)
    (hx : h.resources r = some x)
    (hentry : h.entries x.entryRef = some entry) (hsrc : x.srcPtr = none) (hdest : x.destList = [])
    (hsame : SameCore (removed h r x entry) h₁)
    (hlog : h₁.log = h.log ++ evs.map (.obs r)) (hfreed : Freed evs)
    (htimer : ∀ o, x.cls = .observation o → .destructing o.backupTimer ∈ evs) :
    Sat Confusion (releaseEntry (x.entryRef + 1) h₁ x.entryRef) (Ext P b) := by
  refine (sat_releaseEntry _ h₁ x.entryRef).and_result.mono ?_
  rintro h' ⟨_, hrel⟩
  have hlog' : h'.log = h.log ++ evs.map (.obs r) :=
    ((releaseEntry_frame _ _ _).result hrel).log.trans hlog
  exact he.step (.remove hx hentry hsrc hdest hsame hlog hfreed hrel htimer)
    (settled_plain hlog' (by simp [Event.isPlain]))

theorem sat_resTreeDeleteIO (he : Ext P b h) (hentry : h.entries e = some entry)
    (hio : entry.type.isIo = true) : Sat Confusion ( resTreeDeleteIO P h e) (Ext P b) := by
  unfold resTreeDeleteIO
  refine ((sat_attachedTo h e).weaken bad_of_confusion).bind ?_
  rintro r ⟨entry', hentry', hr⟩
  cases hentry.symm.trans hentry'
  obtain ⟨x, hx, hxe⟩ := he.wf.resourceOf e entry r hentry hr
  subst hxe
  rw [getEntry_ok.mpr hentry, ok_bind]
  refine ((he.treeChange x.entryRef entry.type .removed).weaken bad_of_confusion).bind ?_
  rintro h₀ ⟨he, path, hh₀⟩
  have hentry : h₀.entries x.entryRef = some entry := by rw [hh₀]; exact hentry
  have hx : h₀.resources r = some x := by rw [hh₀]; exact hx
  clear hh₀ hentry'
  refine ((sat_getResource h₀ r).weaken bad_of_confusion).bind fun x' hx' => ?_
  cases hx.symm.trans hx'
  split
  · exact ((he.replace hentry (.io hio) .placeholder).weaken bad_of_confusion).bind
      fun p hp => hp.1
  · unfold detach
    have hmod : h₀.modifyEntry x.entryRef
        (fun entry => { entry with resourcePtr := none, type := .nameSpace })
        = .ok (h₀.setEntry x.entryRef { entry with resourcePtr := none, type := .nameSpace }) :=
      modifyEntry_ok.mpr ⟨entry, hentry, rfl⟩
    rw [hmod]
    have hroutes : x.srcPtr = none ∧ x.destList = [] := by
      next hsettings =>
      simp only [resHasAdminSettings, Bool.not_eq_true, Bool.or_eq_false_iff] at hsettings
      exact ⟨by simpa using hsettings.1.1.1.1, by simpa using hsettings.1.1.1.2⟩
    have hsrc := (src_of_resource hx).trans hroutes.1
    have hdest := (dests_of_resource hx).trans hroutes.2
    refine ((sat_releaseResource (h := h₀.setEntry _ _) hsrc hdest).weaken
      bad_of_confusion).and_result.bind ?_
    rintro h₁ ⟨_, hrel⟩
    obtain ⟨z, evs, hz, hsrc, hdest, hsame, hlog, _, hfreed, htimer⟩ :=
      (releaseResource_frame _ r).result hrel
    cases hx.symm.trans hz
    exact sat_remove he hx hentry hsrc hdest
      ⟨hsame.entries, hsame.resources, hsame.nextEntry, hsame.nextRes, hsame.nextRead,
        hsame.updating, hsame.handlers, hsame.nextHandler, hsame.orphanTimers⟩ hlog hfreed
      htimer

theorem sat_resTreeDeleteObservation (fuel : Nat) (he : Ext P b h) (e : EntryRef) :
    Sat Confusion (resTreeDeleteObservation P fuel h e) (Ext P b) := by
  unfold resTreeDeleteObservation
  refine ((he.treeChange e .observation .removed).weaken bad_of_confusion).bind ?_
  rintro h' ⟨he, _⟩
  refine ((sat_attachedTo h' e).weaken bad_of_confusion).bind ?_
  rintro r ⟨entry, hentry, hr⟩
  obtain ⟨x₀, hx₀, hxe₀⟩ := he.wf.resourceOf e entry r hentry hr
  rw [resDeleteObservation_eq fuel h' r hx₀]
  refine Sat.bind (Q := fun h₁ => ∃ (h₀ : Hub) (x : Resource) (evs : List ObsEvent),
    Ext P b h₀ ∧ h₀.resources r = some x ∧ x.entryRef = e ∧ h₀.entries e = some entry ∧
    x.srcPtr = none ∧ x.destList = [] ∧ SameCore (freed h₀ r x) h₁ ∧
    h₁.log = h₀.log ++ evs.map (.obs r) ∧ Freed evs ∧
    ∀ o, x.cls = .observation o → .destructing o.backupTimer ∈ evs) ?_ ?_
  · refine ((sat_unroute fuel he r).weaken bad_of_confusion).and_result.bind ?_
    rintro h₀ ⟨⟨he₀, hplaces⟩, hun⟩
    obtain ⟨hsrc₀, hdest₀⟩ := (routeless_unroute fuel h' r).result hun
    refine ((sat_getResource h₀ r).weaken bad_of_confusion).bind fun x hx => ?_
    refine ((sat_releaseResource hsrc₀ hdest₀).weaken bad_of_confusion).and_result.mono ?_
    rintro h₁ ⟨_, hrel⟩
    obtain ⟨z, evs, hz, hsrc, hdest, hsame, hlog, _, hfreed, htimer⟩ :=
      (releaseResource_frame h₀ r).result hrel
    cases hx.symm.trans hz
    have hxe : x.entryRef = e := by
      have := hplaces.places r
      rw [hx, hx₀] at this
      simpa [hxe₀] using this
    exact ⟨h₀, x, evs, he₀, hx, hxe, by rw [hplaces.entries, hentry], hsrc, hdest, hsame, hlog,
      hfreed, htimer⟩
  · rintro h₁ ⟨h₀, x, evs, he₀, hx, rfl, hentry₀, hsrc, hdest, hsame, hlog, hfreed,
      htimer⟩
    unfold detach
    have hentry₁ : h₁.entries x.entryRef = some entry := by
      rw [hsame.entries]
      exact hentry₀
    have hmod : h₁.modifyEntry x.entryRef
        (fun entry => { entry with resourcePtr := none, type := .nameSpace })
        = .ok (h₁.setEntry x.entryRef { entry with resourcePtr := none, type := .nameSpace }) :=
      modifyEntry_ok.mpr ⟨entry, hentry₁, rfl⟩
    rw [hmod]
    refine sat_remove he₀ hx hentry₀ hsrc hdest ⟨?_, hsame.resources, hsame.nextEntry,
      hsame.nextRes, hsame.nextRead, hsame.updating, hsame.handlers, hsame.nextHandler,
      hsame.orphanTimers⟩ hlog hfreed htimer
    show Function.update h₁.entries _ _ = Function.update h₀.entries _ _
    rw [hsame.entries]
    rfl

end MangOH.DataHub
