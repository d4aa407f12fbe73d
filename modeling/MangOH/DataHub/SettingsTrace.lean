import MangOH.DataHub.PushTrace

/-! Routes and administrative settings are made of atomic changes, and read no payload at a wrong
type. -/
namespace MangOH.DataHub

open Outcome

variable {P : Platform} {b h h' : Hub} {r : ResRef} {x y : Resource} {t : DataType}
  {s : DataSample} {entry : Entry} {et : EntryType}

/-! ### Overrides and defaults -/

/-- A sample that is set as an override or a default. -/
theorem exists_delivered (hs : s.type = t) (hv : s.via = []) :
    ∃ s' : DataSample, { s with hops := 1 } = s' ∧ s'.type = t ∧ s'.via = [] ∧ s'.hops = 1 :=
  ⟨_, rfl, hs, hv, rfl⟩

theorem sat_resSetOverride (fuel : Nat) (he : Ext P b h) (r : ResRef) (hs : s.type = t)
    (hv : s.via = []) : Sat Bad (resSetOverride P fuel h r t s) (Ext P b) := by
  obtain ⟨s', hdelivered, hs, hv, hh⟩ := exists_delivered hs hv
  unfold resSetOverride
  dsimp only
  simp only [hdelivered]
  refine (sat_getResource h r).bind fun x hx => ?_
  refine (sat_entryType h x).bind ?_
  rintro et ⟨entry, hentry, rfl⟩
  have hcls := he.wf.cls r x entry hx hentry
  have hedit : Edit P r h.isUpdateInProgress entry.type x [] (x.withOverride t s') :=
    .override t s' hs hv hh
  rw [isAcceptable_eq (x := { x with overrideValue := some s', overrideType := t }) hcls t]
  unfold Resource.withOverride at hedit
  have hreads : ∀ op ∈ Resource.readOps { x with overrideValue := some s', overrideType := t },
      op.id < h.nextRead := he.wf.reads r x hx
  cases hacc : Resource.acceptable { x with overrideValue := some s', overrideType := t } t with
  | true =>
    exact sat_updateCurrentValue (fun _ h dest t u s he hs => sat_resPush fuel he dest u hs) he hx
      hentry hedit hcls rfl hreads (.refl _) (by simp [Hub.setResource]) hs
  | false =>
    unfold Resource.accept at hedit
    rw [hacc] at hedit
    exact he.edit hx hentry hedit hreads (.refl _) (by simp [Hub.setResource])

theorem usable_eq (hcls : ClassOk et x.cls) (value : Option DataSample) (t : DataType) :
    fallback.usable et x value t = .ok (Resource.fallback.usable x value t) := by
  unfold fallback.usable Resource.fallback.usable
  cases value with
  | none => simp [pure, Except.pure]
  | some s =>
    dsimp only
    rw [isAcceptable_eq hcls]
    rfl

theorem fallback_eq (hcls : ClassOk et x.cls) : fallback et x = .ok x.fallback := by
  unfold fallback Resource.fallback
  rw [usable_eq hcls, usable_eq hcls]
  rw [ok_bind]
  cases Resource.fallback.usable x x.pushedValue x.pushedType <;> rfl

theorem sat_resRemoveOverride (fuel : Nat) (he : Ext P b h) (r : ResRef) :
    Sat Bad (resRemoveOverride P fuel h r) (Ext P b) := by
  unfold resRemoveOverride
  refine (sat_getResource h r).bind fun x hx => ?_
  refine (sat_entryType h x).bind ?_
  rintro et ⟨entry, hentry, rfl⟩
  have hcls := he.wf.cls r x entry hx hentry
  have htyped := he.wf.typed r x entry hx hentry
  have hedit : Edit P r h.isUpdateInProgress entry.type x [.unoverriding entry.type x]
      x.unoverride := .unoverride
  unfold Resource.unoverride at hedit
  dsimp only
  split
  · next hnone =>
    rw [if_pos hnone] at hedit
    refine he.edit hx hentry hedit (he.wf.reads r x hx) ?_ rfl
    rw [setResource_self hx]
    exact ⟨rfl, rfl, rfl, rfl, Nat.le_refl _, rfl, rfl, rfl, rfl⟩
  · next hsome =>
    rw [if_neg hsome] at hedit
    rw [fallback_eq (x := { x with overrideValue := none }) hcls]
    have hreads : ∀ op ∈ Resource.readOps { x with overrideValue := none }, op.id < h.nextRead :=
      he.wf.reads r x hx
    have hsame : SameCore (h.setResource r { x with overrideValue := none })
        ((h.emit (.unoverriding entry.type x)).setResource r { x with overrideValue := none }) :=
      ⟨rfl, rfl, rfl, rfl, Nat.le_refl _, rfl, rfl, rfl, rfl⟩
    rw [ok_bind, fallback_dropOverride]
    cases hf : x.fallback with
    | none =>
      rw [hf] at hedit
      exact he.edit hx hentry hedit hreads hsame rfl
    | some q =>
      rw [hf] at hedit
      exact sat_updateCurrentValue (fun _ h dest t u s he hs => sat_resPush fuel he dest u hs) he hx
        hentry hedit hcls rfl hreads hsame rfl (fallback_typed htyped hf)

theorem operatesOnDefault_eq (hcls : ClassOk et x.cls) :
    operatesOnDefault et x = .ok x.operatesOnDefault := by
  unfold operatesOnDefault Resource.operatesOnDefault
  rw [resIsOverridden_eq hcls, isAcceptable_eq hcls]
  cases ho : x.overridden with
  | true => rfl
  | false => cases hp : x.pushedValue <;> rfl

theorem sat_resSetDefault (fuel : Nat) (he : Ext P b h) (r : ResRef) (hs : s.type = t)
    (hv : s.via = []) : Sat Bad (resSetDefault P fuel h r t s) (Ext P b) := by
  obtain ⟨s', hdelivered, hs, hv, hh⟩ := exists_delivered hs hv
  unfold resSetDefault
  dsimp only
  simp only [hdelivered]
  refine (sat_getResource h r).bind fun x hx => ?_
  refine (sat_entryType h x).bind ?_
  rintro et ⟨entry, hentry, rfl⟩
  have hcls := he.wf.cls r x entry hx hentry
  have hedit : Edit P r h.isUpdateInProgress entry.type x [] (x.withDefault t s') :=
    .default t s' hs hv hh
  unfold Resource.withDefault at hedit
  dsimp only at hedit
  generalize hyeq : ({ x with defaultValue := some s', defaultType := t } : Resource) = y at hedit ⊢
  have hycls : ClassOk entry.type y.cls := by
    subst hyeq
    exact hcls
  have hplace : y.entryRef = x.entryRef := by
    subst hyeq
    rfl
  have hreads : ∀ op ∈ y.readOps, op.id < h.nextRead := by
    subst hyeq
    exact he.wf.reads r x hx
  rw [isAcceptable_eq hycls, operatesOnDefault_eq hycls]
  show Sat Bad (if (y.acceptable t && y.operatesOnDefault) = true then _ else _) _
  cases hon : y.operatesOnDefault with
  | false =>
    rw [hon] at hedit
    rw [Bool.and_false]
    exact he.edit hx hentry hedit hreads (.refl _) (by simp [Hub.setResource])
  | true =>
    rw [hon] at hedit
    simp only [if_true] at hedit
    rw [Bool.and_true]
    split
    · exact sat_updateCurrentValue (fun _ h dest t u s he hs => sat_resPush fuel he dest u hs) he hx
        hentry hedit hycls hplace hreads (.refl _) (by simp [Hub.setResource]) hs
    · next hacc =>
      unfold Resource.accept at hedit
      rw [if_neg hacc] at hedit
      exact he.edit hx hentry hedit hreads (.refl _) (by simp [Hub.setResource])

/-- A function that changes one resource, in a way that is an edit. -/
theorem sat_modifyResource {f : Resource → Resource} (he : Ext P b h)
    (hedit : ∀ x entry, h.resources r = some x → h.entries x.entryRef = some entry →
      Edit P r h.isUpdateInProgress entry.type x [] (f x) ∧ (f x).cls = x.cls) :
    Sat Bad (h.modifyResource r f) (Ext P b) := by
  unfold Hub.modifyResource
  refine (sat_getResource h r).bind fun x hx => ?_
  obtain ⟨entry, hentry, _⟩ := he.wf.entryOf r x hx
  obtain ⟨hed, hcls⟩ := hedit x entry hx hentry
  exact he.edit hx hentry hed (he.wf.reads_of_cls hx hcls) (.refl _) (by simp [Hub.setResource])

theorem sat_resRemoveDefault (he : Ext P b h) (r : ResRef) :
    Sat Bad (resRemoveDefault h r) (Ext P b) :=
  sat_modifyResource he fun _ _ _ _ => ⟨.undefault, rfl⟩

theorem sat_resMarkOptional (he : Ext P b h) (r : ResRef) :
    Sat Bad (resMarkOptional h r) (Ext P b) := by
  unfold resMarkOptional
  refine (sat_getResource h r).bind fun x hx => ?_
  obtain ⟨entry, hentry, _⟩ := he.wf.entryOf r x hx
  split
  · next t mandatory hio =>
    have hreads : ∀ op ∈ Resource.readOps { x with cls := .ioPoint t false },
      op.id < h.nextRead := by
      simp [Resource.readOps]
    exact he.edit hx hentry (.optional t mandatory hio) hreads (.refl _) (by simp [Hub.setResource])
  · exact id

/-! ### Routes -/

theorem sat_modify (h : Hub) (r : ResRef) (f : Resource → Resource) :
    Sat Bad (h.modifyResource r f) fun _ => True :=
  (sat_getResource h r).bind fun _ _ => trivial

theorem Ext.unlink (he : Ext P b h) (dest : ResRef) : Sat Bad (unlinkSource h dest) (Ext P b) := by
  have hbad : Sat Bad (unlinkSource h dest) fun _ => True := by
    unfold unlinkSource
    refine (sat_getResource h dest).bind fun d _ => ?_
    split
    · exact trivial
    · exact (sat_modify _ _ _).bind fun _ _ => sat_modify _ _ _
  exact hbad.and_result.mono fun h' hu => he.step (.unlink dest hu.2)
    (settled_same ((routesOnly_unlinkSource h dest).result hu.2).log)

theorem srcPtr_unlinkSource {dest : ResRef} (hu : unlinkSource h dest = .ok h') :
    ∃ d, h'.resources dest = some d ∧ d.srcPtr = none := by
  unfold unlinkSource at hu
  simp only [bind_eq_ok, getResource_ok] at hu
  obtain ⟨d, hd, hu⟩ := hu
  split at hu
  · cases hu
    exact ⟨d, hd, ‹_›⟩
  · simp only [bind_eq_ok, modifyResource_ok] at hu
    obtain ⟨h₁, _, d₁, hd₁, rfl⟩ := hu
    exact ⟨{ d₁ with srcPtr := none }, by simp [Hub.setResource], rfl⟩

/-- The loop check looks at nothing but the routes. -/
theorem canGetThereFromHere_congr (hres : h'.resources = h.resources) (there : ResRef)
    (fuel : Nat) (here : ResRef) :
    canGetThereFromHere h' there fuel here = canGetThereFromHere h there fuel here := by
  induction fuel generalizing here with
  | zero => rfl
  | succ fuel ih =>
    unfold canGetThereFromHere
    have hget : h'.getResource here = h.getResource here := by
      unfold Hub.getResource
      rw [hres]
    simp only [hget, ih]

theorem sat_canGetThereFromHere (there : ResRef) (fuel : Nat) (here : ResRef) :
    Sat Bad (canGetThereFromHere h there fuel here) fun _ => True := by
  induction fuel generalizing here with
  | zero => exact id
  | succ fuel ih =>
    unfold canGetThereFromHere
    refine (sat_getResource h here).bind fun x _ => ?_
    induction x.destList with
    | nil => exact trivial
    | cons dest rest ihr =>
      rw [List.anyM]
      refine Sat.bind (Q := fun _ => True) ?_ fun found _ => ?_
      · split
        · exact trivial
        · exact ih dest
      · cases found with
        | true => exact trivial
        | false => exact ihr

theorem sat_setJsonExample (fuel : Nat) (he : Ext P b h) (r : ResRef) (hs : s.type = .json) :
    Sat Bad (resSetJsonExample fuel h r s) (Ext P b) := by
  induction fuel generalizing h r with
  | zero =>
    unfold resSetJsonExample
    exact id
  | succ fuel ih =>
    unfold resSetJsonExample
    refine (sat_getResource h r).bind fun x hx => ?_
    obtain ⟨entry, hentry, _⟩ := he.wf.entryOf r x hx
    have he' : Ext P b (h.setResource r { x with jsonExample := some s }) :=
      he.edit hx hentry (.jsonExample s hs) (he.wf.reads r x hx)
        (.refl _) (by simp [Hub.setResource])
    refine Sat.foldlM he' fun h₁ dest _ he₁ => ?_
    unfold resSetJsonExample.passOn
    refine (sat_getResource h₁ dest).bind fun d hd => ?_
    refine (sat_entryType h₁ d).bind ?_
    rintro _ ⟨entry', hentry', rfl⟩
    rw [isAcceptable_eq (he₁.wf.cls dest d entry' hd hentry')]
    show Sat Bad (if _ then _ else _) _
    split
    · exact ih he₁ dest
    · exact he₁

theorem sat_propagateExample (fuel : Nat) (he : Ext P b h) (dest src : ResRef) :
    Sat Bad (propagateExample fuel h dest src) (Ext P b) := by
  unfold propagateExample
  refine (sat_getResource h src).bind fun x hx => ?_
  split
  · exact he
  · next s hs =>
    obtain ⟨entry, hentry, _⟩ := he.wf.entryOf src x hx
    have htype := (he.wf.typed src x entry hx hentry).jsonExample s hs
    unfold resSetJsonExample.passOn
    refine (sat_getResource h dest).bind fun d hd => ?_
    refine (sat_entryType h d).bind ?_
    rintro _ ⟨entry', hentry', rfl⟩
    rw [isAcceptable_eq (he.wf.cls dest d entry' hd hentry')]
    show Sat Bad (if _ then _ else _) _
    split
    · exact sat_setJsonExample fuel he dest htype
    · exact he

theorem sat_flagRoute (he : Ext P b h) (r : ResRef) :
    Sat Bad (flagConfigChange h r .route) (Ext P b) := by
  unfold flagConfigChange Hub.modifyResource
  refine (sat_getResource _ r).bind fun x hx => ?_
  obtain ⟨entry, hentry, _⟩ := he.wf.entryOf r x hx
  refine he.edit hx hentry .flag (he.wf.reads r x hx) ?_ rfl
  refine ⟨rfl, ?_, rfl, rfl, Nat.le_refl _, rfl, rfl, rfl, rfl⟩
  cases hup : h.isUpdateInProgress <;> simp [Hub.setResource, Hub.configured, Hub.emit, hup]

theorem sat_clearUnits (he : Ext P b h) (dest : ResRef) :
    Sat Bad (clearUnits P h dest) (Ext P b) := by
  unfold clearUnits
  refine (sat_getResource h dest).bind fun d hd => ?_
  refine (sat_entryType h d).bind ?_
  rintro _ ⟨entry, hentry, rfl⟩
  split
  · next ht =>
    have hio : entry.type.isIo = false := by
      rcases ht with ht | ht <;> rw [ht] <;> rfl
    exact he.edit hd hentry (.clearUnits hio) (he.wf.reads dest d hd) (.refl _)
      (by simp [Hub.setResource])
  · exact he

theorem Ext.link (he : Ext P b h) (fuel : Nat) {dest src : ResRef} {d : Resource}
    (hd : h.resources dest = some d) (hnone : d.srcPtr = none)
    (hloop : canGetThereFromHere h src fuel dest = .ok false) :
    Sat Bad (linkSource (h.emit (.routing dest src)) dest src) (Ext P b) := by
  have hbad : Sat Bad (linkSource (h.emit (.routing dest src)) dest src) fun _ => True :=
    (sat_modify _ _ _).bind fun _ _ => sat_modify _ _ _
  exact hbad.and_result.mono fun h' hl => he.step (.link dest src fuel hd hnone hloop hl.2)
    (settled_plain ((routesOnly_linkSource _ dest src).result hl.2).log (by simp [Event.isPlain]))

theorem sat_resSetSource (fuel : Nat) (he : Ext P b h) (dest : ResRef) (src : Option ResRef) :
    Sat Bad (resSetSource P fuel h dest src) fun r => Ext P b r.1 := by
  unfold resSetSource
  refine (sat_getResource h dest).bind fun d _ => ?_
  split
  · exact he
  · refine (he.unlink dest).and_result.bind ?_
    rintro h₁ ⟨he₁, hu⟩
    cases src with
    | none =>
      exact (sat_clearUnits he₁ dest).bind
        fun h₂ he₂ => he₂.notes (.noSource dest _) (.plain rfl .nil)
    | some src =>
      have hnote : Ext P b (h₁.emit (.routing dest src)) :=
        he₁.notes (.routing dest src) (.plain rfl .nil)
      refine (sat_canGetThereFromHere src fuel dest).and_result.bind ?_
      rintro loop ⟨_, hloop⟩
      cases loop with
      | true =>
        show Ext P b (if d.srcPtr.isSome then _ else _)
        split
        · exact hnote.notes (.noSource dest _) (.plain rfl .nil)
        · exact hnote
      | false =>
        obtain ⟨d₁, hd₁, hnone⟩ := srcPtr_unlinkSource hu
        have hres : (h₁.emit (.routing dest src)).resources = h₁.resources := rfl
        have hloop' : canGetThereFromHere h₁ src fuel dest = .ok false :=
          (canGetThereFromHere_congr hres src fuel dest).symm.trans hloop
        refine (he₁.link fuel hd₁ hnone hloop').bind fun h₂ he₂ => ?_
        refine (sat_propagateExample fuel he₂ dest src).bind fun h₃ he₃ => ?_
        refine (sat_flagRoute he₃ src).bind fun h₄ he₄ => ?_
        exact (sat_flagRoute he₄ dest).bind fun h₅ he₅ => he₅

/-! ### Observations -/

section Observations

variable {B : Fault → Prop} {o : Observation} {op : ReadOperation}
  {f : ObsContext → Observation → Except Fault (Observation × List ObsEvent)}

/-- Where a function of `obs.c` is applied, and what that leads to. -/
theorem sat_modifyObs (hB : ∀ e, B e → Bad e)
    (hf : ∀ x o, h.resources r = some x → x.cls = .observation o →
      Sat B (f (obsContext h x) o) fun _ => True) :
    Sat B (modifyObs h r f) fun h' => ∃ x o p, h.resources r = some x ∧ x.cls = .observation o ∧
      f (obsContext h x) o = .ok p ∧
      h' = (h.emitObs r p.2).setResource r { x with cls := .observation p.1 } := by
  unfold modifyObs
  refine ((sat_getResource h r).weaken hB).bind fun x hx => ?_
  split
  · next o ho =>
    refine (hf x o hx ho).and_result.bind ?_
    rintro p ⟨_, hp⟩
    exact ⟨x, o, p, hx, ho, hp, rfl⟩
  · exact fun hb => hB _ hb

/-- A function of `obs.c` that changes only the Observation. -/
theorem sat_observe (he : Ext P b h) (hB : ∀ e, B e → Bad e)
    (hf : ∀ x o, h.resources r = some x → x.cls = .observation o → o.BufferOk →
      Sat B (f (obsContext h x) o) fun p => ObsStep P o p.2 p.1 ∧ p.1.samples ⊆ o.samples ∧
        p.1.lastPushTime = o.lastPushTime ∧ ∀ op ∈ p.1.readOpList, op.id < h.nextRead) :
    Sat B (modifyObs h r f) (Ext P b) := by
  have hbuf : ∀ x o, h.resources r = some x → x.cls = .observation o → o.BufferOk := by
    intro x o hx ho
    obtain ⟨entry, hentry, _⟩ := he.wf.entryOf r x hx
    exact (he.wf.typed r x entry hx hentry).buffer o ho
  refine (sat_modifyObs hB fun x o hx ho => (hf x o hx ho (hbuf x o hx ho)).mono
    fun _ _ => trivial).mono ?_
  rintro h' ⟨x, o, p, hx, ho, hp, rfl⟩
  obtain ⟨hstep, hkept, hlast, hreads⟩ := (hf x o hx ho (hbuf x o hx ho)).result hp
  obtain ⟨entry, hentry, _⟩ := he.wf.entryOf r x hx
  exact he.edit hx hentry (.observe ho hstep hkept hlast) hreads
    ⟨rfl, rfl, rfl, rfl, Nat.le_refl _, rfl, rfl, rfl, rfl⟩ rfl

theorem reads_of_observation (hwf : WellFormed h) (hx : h.resources r = some x)
    (ho : x.cls = .observation o) : ∀ op ∈ o.readOpList, op.id < h.nextRead := by
  have := hwf.reads r x hx
  simpa [Resource.readOps, ho] using this

theorem bad_bad (e : Fault) (h : Bad e) : Bad e := h

/-- The flag is raised on a resource that has been edited as far as `y`. -/
theorem sat_flagAfter (he : Ext P b h) (hx : h.resources r = some x)
    (hentry : h.entries x.entryRef = some entry) {setting : Setting} {evs : List ObsEvent}
    (hedit : Edit P r h.isUpdateInProgress entry.type x
      (evs.map (.obs r) ++ [.configured r setting h.isUpdateInProgress])
      { y with isConfigChanging := h.isUpdateInProgress || y.isConfigChanging })
    (hreads : ∀ op ∈ y.readOps, op.id < h.nextRead)
    (hsame : SameCore (h.setResource r y) h') (hlog : h'.log = h.log ++ evs.map (.obs r)) :
    Sat Bad (flagConfigChange h' r setting) (Ext P b) := by
  unfold flagConfigChange Hub.modifyResource
  refine (sat_getResource _ r).bind fun z hz => ?_
  have hz' : z = y := by
    simp only [Hub.configured, Hub.emit, hsame.resources, Hub.setResource,
      Function.update_self] at hz
    exact (Option.some.inj hz).symm
  subst hz'
  refine he.edit hx hentry hedit hreads ⟨hsame.entries, ?_, hsame.nextEntry, hsame.nextRes,
    hsame.nextRead, hsame.updating, hsame.handlers, hsame.nextHandler, hsame.orphanTimers⟩ ?_
  · have hup := hsame.updating
    have hres := hsame.resources
    dsimp only [Hub.setResource] at hup hres
    simp only [Hub.setResource, Hub.configured, Hub.emit, hres, hup, Function.update_idem]
    cases h.isUpdateInProgress <;> simp
  · have hup : h'.isUpdateInProgress = h.isUpdateInProgress := hsame.updating
    simp [Hub.setResource, Hub.configured, Hub.emit, hlog, hup]

theorem sat_setFilter (he : Ext P b h) (r : ResRef) {set : Observation → Observation}
    (hset : ∀ o, ObsStep P o [] (set o)) (hreads : ∀ o, (set o).readOpList = o.readOpList)
    (hsamples : ∀ o, (set o).samples = o.samples)
    (hlast : ∀ o, (set o).lastPushTime = o.lastPushTime) :
    Sat Bad (setFilter set h r) (Ext P b) := by
  unfold setFilter
  refine (sat_modifyObs bad_bad ?_).bind ?_
  · intro x o _ _
    exact trivial
  · rintro _ ⟨x, o, p, hx, ho, hp, rfl⟩
    cases hp
    obtain ⟨entry, hentry, _⟩ := he.wf.entryOf r x hx
    refine sat_flagAfter he hx hentry
      (.configure ho (hset o) .filter (.inl rfl) x.pushedValue (.inl rfl)
        (hsamples o ▸ List.Subset.refl _) (hlast o)) ?_
      ⟨rfl, rfl, rfl, rfl, Nat.le_refl _, rfl, rfl, rfl, rfl⟩ rfl
    show ∀ op ∈ (set o).readOpList, op.id < h.nextRead
    rw [hreads]
    exact reads_of_observation he.wf hx ho

theorem sat_resSetMinPeriod (he : Ext P b h) (r : ResRef) (minPeriod : Double) :
    Sat Bad (resSetMinPeriod h r minPeriod) (Ext P b) :=
  sat_setFilter he r (fun o => .settings o o.highLimit o.lowLimit o.changeBy minPeriod
    o.jsonExtraction) (fun _ => rfl) (fun _ => rfl) fun _ => rfl

theorem sat_resSetHighLimit (he : Ext P b h) (r : ResRef) (highLimit : Double) :
    Sat Bad (resSetHighLimit h r highLimit) (Ext P b) :=
  sat_setFilter he r (fun o => .settings o highLimit o.lowLimit o.changeBy o.minPeriod
    o.jsonExtraction) (fun _ => rfl) (fun _ => rfl) fun _ => rfl

theorem sat_resSetLowLimit (he : Ext P b h) (r : ResRef) (lowLimit : Double) :
    Sat Bad (resSetLowLimit h r lowLimit) (Ext P b) :=
  sat_setFilter he r (fun o => .settings o o.highLimit lowLimit o.changeBy o.minPeriod
    o.jsonExtraction) (fun _ => rfl) (fun _ => rfl) fun _ => rfl

theorem sat_resSetChangeBy (he : Ext P b h) (r : ResRef) (changeBy : Double) :
    Sat Bad (resSetChangeBy h r changeBy) (Ext P b) :=
  sat_setFilter he r (fun o => .settings o o.highLimit o.lowLimit changeBy o.minPeriod
    o.jsonExtraction) (fun _ => rfl) (fun _ => rfl) fun _ => rfl

theorem bufferOk_of_resource (hwf : WellFormed h) (hx : h.resources r = some x)
    (ho : x.cls = .observation o) : o.BufferOk := by
  obtain ⟨entry, hentry, _⟩ := hwf.entryOf r x hx
  exact (hwf.typed r x entry hx hentry).buffer o ho

theorem sat_resSetTransform (he : Ext P b h) (r : ResRef) (ty : TransformType) :
    Sat Bad (resSetTransform h r ty) (Ext P b) := by
  unfold resSetTransform
  refine (sat_modifyObs bad_bad ?_).bind ?_
  · intro x o hx ho
    exact (sat_setTransform (bufferOk_of_resource he.wf hx ho) ty).mono fun _ _ => trivial
  · rintro _ ⟨x, o, p, hx, ho, hp, rfl⟩
    obtain ⟨entry, hentry, _⟩ := he.wf.entryOf r x hx
    obtain ⟨refCount, maxCount, hpo, _⟩ :=
      (sat_setTransform (B := Bad) (bufferOk_of_resource he.wf hx ho) ty).result hp
    have hget : ((h.emitObs r p.2).setResource r { x with cls := .observation p.1 }).getResource r
        = .ok { x with cls := .observation p.1 } := by
      simp [Hub.getResource, Hub.setResource]
    unfold Hub.modifyResource
    rw [hget]
    refine sat_flagAfter (y := { x with cls := .observation p.1, pushedValue := none }) he hx hentry
      (.configure ho (.transform ty hp) .transform (.inr rfl) none (.inr ⟨rfl, rfl⟩)
        (by simp [hpo, Observation.samples]) (by rw [hpo])) ?_ ?_ rfl
    · have hreads := reads_of_observation he.wf hx ho
      show ∀ op ∈ p.1.readOpList, op.id < h.nextRead
      rw [hpo]
      exact hreads
    · refine ⟨rfl, ?_, rfl, rfl, Nat.le_refl _, rfl, rfl, rfl, rfl⟩
      simp [Hub.setResource, Hub.emitObs]

theorem sat_resSetBufferMaxCount (he : Ext P b h) (r : ResRef) (count : UInt32) :
    Sat Bad (resSetBufferMaxCount P h r count) (Ext P b) := by
  refine sat_observe he bad_bad fun x o hx ho hb => ?_
  refine (sat_setBufferMaxCount hb count).and_result.mono ?_
  rintro p ⟨⟨_, _, _, hsamples, hreads, _, hlast⟩, hp⟩
  refine ⟨.maxCount _ count hp, ?_, hlast, ?_⟩
  · rw [hsamples]
    exact List.drop_subset _ _
  · rw [hreads]
    exact reads_of_observation he.wf hx ho

theorem sat_resSetBufferBackupPeriod (he : Ext P b h) (r : ResRef) (seconds : UInt32) :
    Sat Bad (resSetBufferBackupPeriod P h r seconds) (Ext P b) := by
  refine sat_observe he bad_bad fun x o hx ho hb => ?_
  refine (sat_setBufferBackupPeriod hb.typed seconds).and_result.mono ?_
  rintro p ⟨⟨_, _, _, hpo⟩, hp⟩
  refine ⟨.backupPeriod _ seconds hp, by rw [hpo]; exact List.Subset.refl _, by rw [hpo], ?_⟩
  rw [hpo]
  have hreads := reads_of_observation he.wf hx ho
  exact hreads

theorem sat_backupNow (he : Ext P b h) (r : ResRef) :
    Sat Bad (modifyObs h r (backup P)) (Ext P b) := by
  refine sat_observe he bad_bad fun x o hx ho hb => ?_
  refine (sat_backup hb.typed).and_result.mono ?_
  rintro p ⟨hpo, hp⟩
  refine ⟨.backup _ hp, by rw [hpo]; exact List.Subset.refl _, by rw [hpo], ?_⟩
  rw [hpo]
  have hreads := reads_of_observation he.wf hx ho
  exact hreads

theorem sat_resSetJsonExtraction (he : Ext P b h) (r : ResRef) (extractionSpec : CString) :
    Sat Bad (resSetJsonExtraction h r extractionSpec) (Ext P b) := by
  unfold resSetJsonExtraction
  refine (sat_modifyObs bad_bad ?_).bind ?_
  · intro x o _ _
    split
    · exact trivial
    · exact id
  · rintro _ ⟨x, o, p, hx, ho, hp, rfl⟩
    obtain ⟨entry, hentry, _⟩ := he.wf.entryOf r x hx
    split at hp
    · cases hp
      have hstep : ObsStep P o [] { o with jsonExtraction := extractionSpec } :=
        .settings o o.highLimit o.lowLimit o.changeBy o.minPeriod extractionSpec
      have hreads := reads_of_observation he.wf hx ho
      exact he.edit hx hentry (.extraction ho hstep (List.Subset.refl _) rfl) hreads
        ⟨rfl, rfl, rfl, rfl, Nat.le_refl _, rfl, rfl, rfl, rfl⟩
        (by simp [Hub.configured, Hub.emit, Hub.setResource, Hub.emitObs])
    · cases hp

theorem sat_fdEventHandler (he : Ext P b h) (r : ResRef) (id : Nat) (hangUp : Bool)
    (script : List WriteResult) :
    Returns (modifyObs h r fun ctx o => readOpFdEventHandler P ctx.currentType o id hangUp script)
      (Ext P b) := by
  refine sat_observe he (fun _ hb => hb.elim) fun x o hx ho hb => ?_
  refine Returns.of_ok fun p hp => ⟨.fdEvent _ id hangUp script hp, ?_⟩
  obtain ⟨refCount, readOpList, hpo, hids⟩ :=
    (fdEventHandler_frame _ o id hangUp script).result hp
  rw [hpo]
  refine ⟨List.Subset.refl _, rfl, fun op hop => ?_⟩
  obtain ⟨op', hop', heq⟩ := hids op hop
  exact heq ▸ reads_of_observation he.wf hx ho op' hop'

/-- A new read gets a number that no other read has. -/
theorem sat_startRead (he : Ext P b h) (r : ResRef) (startAfter : Double)
    (script : List WriteResult) :
    Returns (modifyObs { h with nextRead := h.nextRead + 1 } r fun ctx o =>
      obsReadBufferJson P ctx o h.nextRead startAfter script) (Ext P b) := by
  have he' : Ext P b { h with nextRead := h.nextRead + 1 } :=
    he.ambient ⟨rfl, rfl, rfl, rfl, Nat.le_succ _, rfl, rfl, rfl, rfl⟩ rfl
  refine sat_observe he' (fun _ hb => hb.elim) fun x o hx ho hb => ?_
  have hold := reads_of_observation he.wf hx ho
  have hfresh : ∀ op ∈ o.readOpList, op.id ≠ h.nextRead :=
    fun op hop => Nat.ne_of_lt (hold op hop)
  refine Returns.of_ok fun p hp => ⟨.startRead _ h.nextRead hfresh startAfter script hp, ?_⟩
  obtain ⟨refCount, readOpList, hpo, hids⟩ :=
    (readBufferJson_frame _ o h.nextRead startAfter script).result hp
  rw [hpo]
  refine ⟨List.Subset.refl _, rfl, fun op hop => ?_⟩
  rcases hids op hop with hid | ⟨op', hop', heq⟩
  · rw [hid]
    exact Nat.lt_succ_self _
  · rw [← heq]
    exact Nat.lt_succ_of_lt (hold op' hop')

/-- A read that cannot be started gets a number, too. -/
theorem sat_refuseRead (he : Ext P b h) :
    Ext P b ({ h with nextRead := h.nextRead + 1 }.emit (.readRefused h.nextRead)) :=
  he.step (.ambient ⟨rfl, rfl, rfl, rfl, Nat.le_succ _, rfl, rfl, rfl, rfl⟩ _ (.readRefused _) rfl)
    (settled_plain rfl (by simp [Event.isPlain]))

/-- A backup is restored into an Observation that is new. -/
theorem sat_resRestoreBackup (fuel : Nat) (he : Ext P b h) (hx : h.resources r = some x)
    (ho : x.cls = .observation obsCreate) : Sat Bad (resRestoreBackup P fuel h r) (Ext P b) := by
  unfold resRestoreBackup
  rw [getResource_ok.mpr hx, ok_bind]
  split
  · exact he
  · split
    · exact he
    · next content _ =>
      rw [ho]
      refine ((sat_restoreContent_bufferOk h.env content).weaken notFatal_of_bad).and_result.bind ?_
      rintro ⟨o, events, newest⟩ ⟨⟨hb, hreads, _, hs⟩, hr⟩
      dsimp only at hb hreads hs ⊢
      obtain ⟨entry, hentry, _⟩ := he.wf.entryOf r x hx
      have he' : Ext P b (((h.emit (.restoring r h.env content)).emitObs r events).setResource r
          { x with cls := .observation o }) := by
        refine he.edit hx hentry (.restore h.env content ho hr) ?_
          ⟨rfl, rfl, rfl, rfl, Nat.le_refl _, rfl, rfl, rfl, rfl⟩
          (by simp [Hub.setResource, Hub.emitObs, Hub.emit])
        show ∀ op ∈ o.readOpList, op.id < h.nextRead
        simp [hreads]
      cases newest with
      | some s => exact sat_resPush fuel he' r [] (hs s rfl).1
      | none => exact he'

end Observations

/-! ### Push handlers -/

theorem sat_resAddPushHandler (he : Ext P b h) (r : ResRef) (t : DataType) :
    Sat Bad (resAddPushHandler h r t) fun p => Ext P b p.1 := by
  unfold resAddPushHandler Hub.modifyResource
  refine Sat.bind (Sat.bind (sat_getResource _ r) fun x hx => ?_) fun h₁ he₁ => he₁
  exact he.step (.addHandler (h := h) hx t) (settled_same rfl)

theorem sat_handlerRemove (he : Ext P b h) (p : HandlerRef) :
    Sat Bad (handlerRemove h p) (Ext P b) := by
  unfold handlerRemove Hub.modifyResource
  split
  · exact he
  · next handler hp =>
    refine Sat.bind (Sat.and_result (Q := fun _ => True) ?_) ?_
    · exact (sat_getResource h handler.listPtr).bind fun _ _ => trivial
    · rintro h₁ ⟨_, h₁eq⟩
      obtain ⟨x, hx, rfl⟩ := modifyResource_ok.mp h₁eq
      exact he.step (.removeHandler hp hx) (settled_same rfl)

end MangOH.DataHub
