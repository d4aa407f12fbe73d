import MangOH.DataHub.TreeTrace

/-! Every operation of the three services is made of atomic changes, and every reachable state is
reached by them. -/
namespace MangOH.DataHub

open Outcome

variable {P : Platform} {b h h' : Hub} {r : ResRef} {e : EntryRef} {x : Resource}
  {t : DataType} {s : DataSample}

/-! ### The resource tree -/

theorem sat_resTreePush (fuel : Nat) (he : Ext P b h) (e : EntryRef) (hs : s.type = t) :
    Sat Bad (resTreePush P fuel h e t s) (Ext P b) := by
  unfold resTreePush
  refine (sat_getEntry h e).bind fun entry _ => ?_
  split
  · exact he
  · exact (sat_attachedTo h e).bind fun r _ => sat_resPush fuel he r [] hs

theorem sat_resTreeSetSource (fuel : Nat) (he : Ext P b h) (dest : EntryRef)
    (src : Option EntryRef) :
    Sat Bad (resTreeSetSource P fuel h dest src) fun p => Ext P b p.1 := by
  unfold resTreeSetSource
  refine (sat_getEntry h dest).bind fun entry _ => ?_
  split
  · exact id
  · refine (sat_attachedTo h dest).bind fun r _ => ?_
    cases src with
    | none => exact sat_resSetSource fuel he r none
    | some src =>
      exact (sat_getEntry h src).bind fun entry _ => sat_resSetSource fuel he r _

/-- States in which no update is in progress. -/
def Resuming (P : Platform) (b h : Hub) : Prop := Ext P b h ∧ h.isUpdateInProgress = false

theorem sat_clearConfigChangingFlag (he : Resuming P b h) (r : ResRef) :
    Sat Bad (clearConfigChangingFlag h r) (Resuming P b) := by
  obtain ⟨he, hup⟩ := he
  unfold clearConfigChangingFlag
  refine (sat_modifyResource he fun x entry _ _ => ⟨.resume hup, rfl⟩).and_result.mono ?_
  rintro h' ⟨he', hm⟩
  obtain ⟨x, _, rfl⟩ := modifyResource_ok.mp hm
  exact ⟨he', hup⟩

theorem sat_forEachResourceUnder {I : Hub → Prop} {func : Hub → ResRef → Except Fault Hub}
    (hfunc : ∀ h r, I h → Sat Bad (func h r) I) (fuel : Nat) (hI : I h) (e : EntryRef) :
    Sat Bad (forEachResourceUnder func fuel h e) I := by
  induction fuel generalizing h e with
  | zero =>
    unfold forEachResourceUnder
    exact id
  | succ fuel ih =>
    unfold forEachResourceUnder
    refine (sat_getEntry h e).bind fun entry _ => ?_
    refine Sat.foldlM hI fun h₁ c _ hI₁ => ?_
    refine Sat.bind (Q := I) ?_ fun h₂ hI₂ => ih hI₂ c
    unfold forEachResourceUnder.apply
    refine (sat_getEntry h₁ c).bind fun child _ => ?_
    split
    · exact hfunc h₁ _ hI₁
    · exact hI₁

theorem sat_deleteIfUnused (he : Ext P b h) (path : CString) :
    Sat Bad (deleteIfUnused P h path) (Ext P b) := by
  have hused : ∀ found, Sat Bad (deleteIfUnused.isUsed h found) fun _ => True := by
    intro found
    cases found with
    | none => exact trivial
    | some e =>
      unfold deleteIfUnused.isUsed
      refine (sat_getEntry h e).bind fun entry _ => ?_
      split
      · exact trivial
      · refine (sat_attachedTo h e).bind fun r _ => ?_
        refine (sat_getResource h r).bind fun x _ => ?_
        split
        · exact trivial
        · exact id
  unfold deleteIfUnused
  split
  · exact he
  · split
    · exact he
    · refine (sat_resTreeFindEntry he rootPtr _).bind fun found _ => ?_
      refine (hused found).bind fun used _ => ?_
      cases used with
      | true => exact he
      | false => exact he.ambient ⟨rfl, rfl, rfl, rfl, Nat.le_refl _, rfl, rfl, rfl, rfl⟩ rfl

theorem sat_resEndUpdate (he : Ext P b h) : Sat Bad (resEndUpdate P h) (Ext P b) := by
  unfold resEndUpdate
  have he₁ : Resuming P b { h.emit .endingUpdate with isUpdateInProgress := false } :=
    ⟨he.step .endUpdate ⟨_, rfl, .plain rfl .nil⟩, rfl⟩
  refine (sat_forEachResourceUnder (fun h r hI => sat_clearConfigChangingFlag hI r) _ he₁
    rootPtr).bind fun h₂ he₂ => ?_
  unfold obsDeleteUnusedBackupFiles
  split
  · exact Sat.foldlM he₂.1 fun h₃ path _ he₃ => sat_deleteIfUnused he₃ path
  · exact he₂.1

/-! ### The I/O service -/

theorem sat_hubGetClientNamespace (he : Ext P b h) (session : Nat) :
    Sat Bad (hubGetClientNamespace P h session) fun p => Ext P b p.1 := by
  unfold hubGetClientNamespace
  split
  · exact he
  · split
    · exact he
    · refine (sat_resTreeGetEntry he rootPtr _).bind ?_
      rintro ⟨h₁, app⟩ he₁
      cases app with
      | none => exact id
      | some app =>
        refine (sat_resTreeGetEntry he₁ app _).bind fun p hp => ?_
        exact hp.ambient ⟨rfl, rfl, rfl, rfl, Nat.le_refl _, rfl, rfl, rfl, rfl⟩ rfl

/-- `FindResource` finds Inputs and Outputs only. -/
theorem sat_ioFindResource (he : Ext P b h) (session : Nat) (path : CString) :
    Sat Bad (ioFindResource P h session path) fun p => Ext P b p.1 ∧
      ∀ e, p.2 = some e → ∃ entry, p.1.entries e = some entry ∧ entry.type.isIo = true := by
  unfold ioFindResource
  refine (sat_hubGetClientNamespace he session).bind ?_
  rintro ⟨h₁, ns⟩ he₁
  cases ns with
  | none => exact ⟨he₁, by simp⟩
  | some ns =>
    refine (sat_resTreeFindEntry he₁ ns path).bind fun found _ => ?_
    cases found with
    | none => exact ⟨he₁, by simp⟩
    | some e =>
      refine (sat_getEntry h₁ e).bind fun entry hentry => ⟨he₁, ?_⟩
      intro e' he'
      dsimp only at he'
      split at he'
      · next hio =>
        cases he'
        exact ⟨entry, hentry, hio⟩
      · cases he'

theorem sat_creationConflict (h : Hub) (type : EntryType) (t : DataType) (units : CString)
    (found : Option EntryRef) :
    Sat Bad (creationConflict h type t units found) fun _ => True := by
  cases found with
  | none => exact trivial
  | some e =>
    unfold creationConflict
    refine (sat_getEntry h e).bind fun entry _ => ?_
    split
    any_goals exact trivial
    all_goals
      split
      · exact trivial
      · refine (sat_attachedTo h e).bind fun r _ => ?_
        exact (sat_getResource h r).bind fun _ _ => trivial

theorem sat_ioCreate {get : Hub → EntryRef → Except Fault (Hub × Option EntryRef)}
    (hget : ∀ h ns, Ext P b h → Sat Bad (get h ns) fun p => Ext P b p.1) (he : Ext P b h)
    (type : EntryType) (session : Nat) (path : CString) (t : DataType) (units : CString) :
    Sat Bad (ioCreate P get type h session path t units) fun p => Ext P b p.1 := by
  unfold ioCreate
  refine (sat_hubGetClientNamespace he session).bind ?_
  rintro ⟨h₁, ns⟩ he₁
  cases ns with
  | none => exact id
  | some ns =>
    refine (sat_resTreeFindEntry he₁ ns path).bind fun found _ => ?_
    refine (sat_creationConflict h₁ type t units found).bind fun conflict _ => ?_
    cases conflict with
    | some result => exact he₁
    | none => exact (hget h₁ ns he₁).bind fun p hp => hp

theorem sat_ioPush (fuel : Nat) (he : Ext P b h) (session : Nat) (path : CString) (ts : Double)
    (value : Argument) : Sat Bad (ioPush P fuel h session path ts value) (Ext P b) := by
  unfold ioPush
  refine (sat_ioFindResource he session path).bind ?_
  rintro ⟨h₁, found⟩ ⟨he₁, _⟩
  cases found with
  | none => exact he₁
  | some e =>
    dsimp only
    split
    · refine ((sat_createFromArgument ts value).weaken notFatal_of_bad).bind fun s hs => ?_
      exact sat_resTreePush fuel he₁ e hs.1
    · exact he₁

theorem sat_ioSetJsonExample (fuel : Nat) (he : Ext P b h) (session : Nat)
    (path jsonExample : CString) :
    Sat Bad (ioSetJsonExample P fuel h session path jsonExample) (Ext P b) := by
  unfold ioSetJsonExample
  refine (sat_ioFindResource he session path).bind ?_
  rintro ⟨h₁, found⟩ ⟨he₁, _⟩
  cases found with
  | none => exact he₁
  | some e =>
    refine (sat_getEntry h₁ e).bind fun entry _ => ?_
    split
    · exact he₁
    · refine (sat_attachedTo h₁ e).bind fun r _ => ?_
      refine (sat_getResource h₁ r).bind fun x _ => ?_
      split
      · exact he₁
      · refine ((sat_createFromArgument .zero (.json jsonExample)).weaken
          notFatal_of_bad).bind ?_
        exact fun s hs => sat_setJsonExample fuel he₁ r hs.1

theorem handler_of_resAddPushHandler {r : ResRef} {t : DataType} {p : HandlerRef}
    (ha : resAddPushHandler h r t = .ok (h', p)) : h'.handlers p = some ⟨t, r⟩ := by
  obtain ⟨h₁, hm, hr⟩ := bind_eq_ok.mp ha
  cases hr
  obtain ⟨x, _, rfl⟩ := modifyResource_ok.mp hm
  exact Function.update_self ..

theorem sat_ioAddPushHandler (he : Ext P b h) (session : Nat) (path : CString) (t : DataType) :
    Sat Bad (ioAddPushHandler P h session path t) (Ext P b) := by
  unfold ioAddPushHandler
  refine (sat_ioFindResource he session path).bind ?_
  rintro ⟨h₁, found⟩ ⟨he₁, _⟩
  cases found with
  | none => exact he₁
  | some e =>
    refine (sat_attachedTo h₁ e).bind fun r _ => ?_
    refine (sat_resAddPushHandler he₁ r t).and_result.bind ?_
    rintro ⟨h₂, p⟩ ⟨he₂, hadd⟩
    have hp := handler_of_resAddPushHandler hadd
    refine (sat_getResource _ r).bind fun x hx => ?_
    obtain ⟨entry, hentry, _⟩ := he₂.wf.entryOf r x hx
    cases hv : x.currentValue with
    | none => exact he₂.notes (.register p _ hp none) (answered_register r p t none)
    | some s => exact sat_register he₂ hp ((he₂.wf.typed r x entry hx hentry).current s hv)

theorem sat_ioMarkOptional (he : Ext P b h) (session : Nat) (path : CString) :
    Sat Bad (ioMarkOptional P h session path) (Ext P b) := by
  unfold ioMarkOptional
  refine (sat_ioFindResource he session path).bind ?_
  rintro ⟨h₁, found⟩ ⟨he₁, _⟩
  cases found with
  | none => exact he₁
  | some e =>
    refine (sat_getEntry h₁ e).bind fun entry _ => ?_
    split
    · exact he₁
    · exact (sat_attachedTo h₁ e).bind fun r _ => sat_resMarkOptional he₁ r

theorem sat_ioSetDefault (fuel : Nat) (he : Ext P b h) (session : Nat) (path : CString)
    (value : Argument) : Sat Bad (ioSetDefault P fuel h session path value) (Ext P b) := by
  unfold ioSetDefault
  refine (sat_ioFindResource he session path).bind ?_
  rintro ⟨h₁, found⟩ ⟨he₁, _⟩
  cases found with
  | none => exact he₁
  | some e =>
    refine (sat_attachedTo h₁ e).bind fun r _ => ?_
    refine (sat_getResource h₁ r).bind fun x _ => ?_
    split
    · exact he₁
    · refine ((sat_createFromArgument .zero value).weaken notFatal_of_bad).bind fun s hs => ?_
      exact sat_resSetDefault fuel he₁ r hs.1 hs.2

theorem sat_ioDeleteResource (he : Ext P b h) (session : Nat) (path : CString) :
    Sat Confusion (ioDeleteResource P h session path) (Ext P b) := by
  unfold ioDeleteResource
  refine ((sat_ioFindResource he session path).weaken bad_of_confusion).bind ?_
  rintro ⟨h₁, found⟩ ⟨he₁, hfound⟩
  cases found with
  | none => exact he₁
  | some e =>
    obtain ⟨entry, hentry, hio⟩ := hfound e rfl
    exact sat_resTreeDeleteIO he₁ hentry hio

/-! ### The Admin service -/

theorem sat_adminPush (fuel : Nat) (he : Ext P b h) (path : CString) (ts : Double)
    (value : Argument) : Sat Bad (adminPush P fuel h path ts value) (Ext P b) := by
  unfold adminPush
  refine (sat_resTreeFindEntryAtAbsolutePath he path).bind fun found _ => ?_
  cases found with
  | none => exact he
  | some e =>
    dsimp only
    split
    · refine ((sat_createFromArgument ts value).weaken notFatal_of_bad).bind fun s hs => ?_
      exact sat_resTreePush fuel he e hs.1
    · exact he

theorem sat_adminAddPushHandler (he : Ext P b h) (path : CString) (t : DataType) :
    Sat Bad (adminAddPushHandler P h path t) (Ext P b) := by
  unfold adminAddPushHandler
  refine (sat_resTreeGetResource he rootPtr path).bind ?_
  rintro ⟨h₁, found⟩ he₁
  cases found with
  | none => exact he₁
  | some e =>
    refine (sat_attachedTo h₁ e).bind fun r _ => ?_
    exact (sat_resAddPushHandler he₁ r t).bind fun p hp => hp

theorem sat_adminSetSource (fuel : Nat) (he : Ext P b h) (destPath srcPath : CString) :
    Sat Bad (adminSetSource P fuel h destPath srcPath) fun p => Ext P b p.1 := by
  unfold adminSetSource
  refine (sat_resTreeGetResource he rootPtr destPath).bind ?_
  rintro ⟨h₁, dest⟩ he₁
  cases dest with
  | none => exact he₁
  | some dest =>
    refine (sat_resTreeGetResource he₁ rootPtr srcPath).bind ?_
    rintro ⟨h₂, src⟩ he₂
    cases src with
    | none => exact he₂
    | some src => exact sat_resTreeSetSource fuel he₂ dest (some src)

theorem sat_atResource {act : ResRef → Except Fault Hub} (he : Ext P b h)
    (hact : ∀ r, Sat Bad (act r) (Ext P b)) (found : Option EntryRef) :
    Sat Bad (atResource h found act) (Ext P b) := by
  unfold atResource
  cases found with
  | none => exact he
  | some e =>
    refine (sat_getEntry h e).bind fun entry _ => ?_
    split
    · exact he
    · exact hact _

theorem sat_adminRemoveSource (fuel : Nat) (he : Ext P b h) (destPath : CString) :
    Sat Bad (adminRemoveSource P fuel h destPath) (Ext P b) := by
  unfold adminRemoveSource
  refine (sat_resTreeFindEntry he rootPtr destPath).bind fun found _ => ?_
  refine sat_atResource he (fun r => ?_) found
  exact (sat_resSetSource fuel he r none).bind fun p hp => hp

theorem sat_adminGetObservation (fuel : Nat) (he : Ext P b h) (path : CString) :
    Sat Bad (adminGetObservation P fuel h path) fun p => Ext P b p.1 := by
  unfold adminGetObservation
  split
  · exact he
  · refine (sat_resTreeGetEntry he rootPtr _).bind ?_
    rintro ⟨h₁, ns⟩ he₁
    cases ns with
    | none => exact id
    | some ns => exact sat_resTreeGetObservation fuel he₁ ns _

theorem sat_adminDeleteObs (fuel : Nat) (he : Ext P b h) (path : CString) :
    Sat Confusion (adminDeleteObs P fuel h path) (Ext P b) := by
  unfold adminDeleteObs
  refine ((sat_resTreeFindEntry he rootPtr _).weaken bad_of_confusion).bind fun ns _ => ?_
  cases ns with
  | none => exact he
  | some ns =>
    refine ((sat_resTreeFindEntry he ns path).weaken bad_of_confusion).bind fun found _ => ?_
    cases found with
    | none => exact he
    | some e => exact sat_resTreeDeleteObservation fuel he e

theorem sat_adminSet {set : Hub → ResRef → Except Fault Hub}
    (hset : ∀ h r, Ext P b h → Sat Bad (set h r) (Ext P b)) (fuel : Nat) (he : Ext P b h)
    (path : CString) : Sat Bad (adminSet P set fuel h path) (Ext P b) := by
  unfold adminSet
  refine (sat_adminGetObservation fuel he path).bind ?_
  rintro ⟨h₁, obs⟩ he₁
  cases obs with
  | none => exact he₁
  | some e => exact (sat_attachedTo h₁ e).bind fun r _ => hset h₁ r he₁

theorem sat_adminSetValue {set : Hub → ResRef → DataType → DataSample → Except Fault Hub}
    (hset : ∀ h r t s, Ext P b h → s.type = t → s.via = [] → Sat Bad (set h r t s) (Ext P b))
    (he : Ext P b h) (path : CString) (value : Argument) :
    Sat Bad (adminSetValue P set h path value) (Ext P b) := by
  unfold adminSetValue
  split
  · refine ((sat_createFromArgument .zero value).weaken notFatal_of_bad).bind fun s hs => ?_
    refine (sat_resTreeGetResource he rootPtr path).bind ?_
    rintro ⟨h₁, found⟩ he₁
    cases found with
    | none => exact he₁
    | some e => exact (sat_attachedTo h₁ e).bind fun r _ => hset h₁ r _ s he₁ hs.1 hs.2
  · exact he

theorem sat_adminRemoveDefault (he : Ext P b h) (path : CString) :
    Sat Bad (adminRemoveDefault P h path) (Ext P b) := by
  unfold adminRemoveDefault
  refine (sat_resTreeFindEntryAtAbsolutePath he path).bind fun found _ => ?_
  exact sat_atResource he (fun r => sat_resRemoveDefault he r) found

theorem sat_adminRemoveOverride (fuel : Nat) (he : Ext P b h) (path : CString) :
    Sat Bad (adminRemoveOverride P fuel h path) (Ext P b) := by
  unfold adminRemoveOverride
  refine (sat_resTreeFindEntryAtAbsolutePath he path).bind fun found _ => ?_
  exact sat_atResource he (fun r => sat_resRemoveOverride fuel he r) found

/-! ### The Query service and the events -/

theorem sat_queryReadBufferJson (he : Ext P b h) (path : CString) (startAfter : Double)
    (nonBlocking : Bool) (script : List WriteResult) :
    Returns (queryReadBufferJson P h path startAfter nonBlocking script) (Ext P b) := by
  refine Returns.of_ok fun h' hq => ?_
  unfold queryReadBufferJson at hq
  obtain ⟨found, _, hq⟩ := bind_eq_ok.mp hq
  cases found with
  | none =>
    cases hq
    exact he
  | some e =>
    dsimp only at hq
    split at hq
    · cases hq
      exact he
    · obtain ⟨r, _, hq⟩ := bind_eq_ok.mp hq
      cases nonBlocking with
      | true => exact (sat_startRead he r startAfter script).result hq
      | false =>
        cases hq
        exact sat_refuseRead he

theorem sat_backupTimerExpired (he : Ext P b h) (r : ResRef) :
    Sat Bad (backupTimerExpired P h r) (Ext P b) := by
  unfold backupTimerExpired
  split
  · split
    · split
      · exact sat_backupNow he r
      · exact he
    · exact he
  · split
    · exact id
    · exact he

theorem sat_fdEvent (he : Ext P b h) (r : ResRef) (id : Nat) (hangUp : Bool)
    (script : List WriteResult) : Returns (fdEvent P h r id hangUp script) (Ext P b) := by
  unfold fdEvent
  split
  · split
    · exact sat_fdEventHandler he r id hangUp script
    · exact he
  · exact he

/-! ### Steps and runs -/

/-- The operations that read the samples of a buffer, which can be of an older type. -/
def Op.reads : Op → Bool
  | .queryReadBufferJson .. | .queryBuffer .. | .fdEvent .. => true
  | _ => false

/-- The operations that release entries. -/
def Op.releases : Op → Bool
  | .ioDeleteResource .. | .adminDeleteObs .. => true
  | _ => false

theorem sat_step (fuel : Nat) (he : Ext P b h) (op : Op) (hread : op.reads = false)
    (hrel : op.releases = false) : Sat Bad (step P fuel h op) (Ext P b) := by
  cases op with
  | ioCreateInput session path t units =>
    exact sat_map_iff.mpr (sat_ioCreate (fun _ ns he => sat_resTreeGetInput he ns path t units) he
      .input session path t units)
  | ioCreateOutput session path t units =>
    exact sat_map_iff.mpr (sat_ioCreate (fun _ ns he => sat_resTreeGetOutput he ns path t units) he
      .output session path t units)
  | ioDeleteResource => cases hrel
  | ioPush session path ts value => exact sat_ioPush fuel he session path ts value
  | ioSetJsonExample session path text => exact sat_ioSetJsonExample fuel he session path text
  | ioAddPushHandler session path t => exact sat_ioAddPushHandler he session path t
  | ioMarkOptional session path => exact sat_ioMarkOptional he session path
  | ioSetDefault session path value => exact sat_ioSetDefault fuel he session path value
  | removePushHandler p => exact sat_handlerRemove he p
  | adminPush path ts value => exact sat_adminPush fuel he path ts value
  | adminAddPushHandler path t => exact sat_adminAddPushHandler he path t
  | adminSetSource dest src => exact sat_map_iff.mpr (sat_adminSetSource fuel he dest src)
  | adminRemoveSource dest => exact sat_adminRemoveSource fuel he dest
  | adminCreateObs path =>
    refine sat_map_iff.mpr ?_
    exact (sat_adminGetObservation fuel he path).bind fun p hp => hp
  | adminDeleteObs => cases hrel
  | adminSetMinPeriod path v =>
    exact sat_adminSet (fun _ r he => sat_resSetMinPeriod he r v) fuel he path
  | adminSetHighLimit path v =>
    exact sat_adminSet (fun _ r he => sat_resSetHighLimit he r v) fuel he path
  | adminSetLowLimit path v =>
    exact sat_adminSet (fun _ r he => sat_resSetLowLimit he r v) fuel he path
  | adminSetChangeBy path v =>
    exact sat_adminSet (fun _ r he => sat_resSetChangeBy he r v) fuel he path
  | adminSetTransform path v =>
    exact sat_adminSet (fun _ r he => sat_resSetTransform he r v) fuel he path
  | adminSetBufferMaxCount path v =>
    exact sat_adminSet (fun _ r he => sat_resSetBufferMaxCount he r v) fuel he path
  | adminSetBufferBackupPeriod path v =>
    exact sat_adminSet (fun _ r he => sat_resSetBufferBackupPeriod he r v) fuel he path
  | adminSetJsonExtraction path v =>
    exact sat_adminSet (fun _ r he => sat_resSetJsonExtraction he r v) fuel he path
  | adminSetDefault path value =>
    exact sat_adminSetValue (fun _ r _ _ he hs hv => sat_resSetDefault fuel he r hs hv) he path
      value
  | adminRemoveDefault path => exact sat_adminRemoveDefault he path
  | adminSetOverride path value =>
    exact sat_adminSetValue (fun _ r _ _ he hs hv => sat_resSetOverride fuel he r hs hv) he path
      value
  | adminRemoveOverride path => exact sat_adminRemoveOverride fuel he path
  | startUpdate => exact he.step .startUpdate (settled_same rfl)
  | endUpdate => exact sat_resEndUpdate he
  | queryReadBufferJson => cases hread
  | queryBuffer => cases hread
  | backupTimerExpired r => exact sat_backupTimerExpired he r
  | fdEvent => cases hread
  | environment env => exact he.ambient ⟨rfl, rfl, rfl, rfl, Nat.le_refl _, rfl, rfl, rfl, rfl⟩ rfl

/-- Operations other than those that read a buffer never read a payload at a wrong type. -/
theorem sat_step_confusion (fuel : Nat) (he : Ext P b h) (op : Op) (hread : op.reads = false) :
    Sat Confusion (step P fuel h op) (Ext P b) := by
  cases hrel : op.releases with
  | false => exact (sat_step fuel he op hread hrel).weaken bad_of_confusion
  | true =>
    cases op <;> cases hrel
    · exact sat_ioDeleteResource he _ _
    · exact sat_adminDeleteObs fuel he _

/-- The query reads samples at the current type of the resource. -/
def BufferQuery.readsCurrentType : BufferQuery → Bool
  | .boolean _ | .numeric _ | .string _ _ | .json _ _ => true
  | .timestamp _ | .min _ | .max _ | .mean _ | .stdDev _ => false

/-- The Observation whose samples an operation reads at the current type of its resource. -/
def Op.buffer (P : Platform) (h : Hub) : Op → Option ResRef
  | .queryReadBufferJson obsPath _ _ _ => find obsPath
  | .queryBuffer obsPath query => if query.readsCurrentType then find obsPath else none
  | .fdEvent r _ _ _ => some r
  | _ => none
where
  find (obsPath : CString) : Option ResRef :=
    match queryFindObservation P h obsPath with
    | .ok (some e) => (h.entries e).bind (·.resourcePtr)
    | _ => none

theorem find_of_attached {obsPath : CString}
    (hfound : queryFindObservation P h obsPath = .ok (some e)) (hr : attachedTo h e = .ok r) :
    Op.buffer.find P h obsPath = some r := by
  unfold attachedTo at hr
  obtain ⟨entry, hentry, hr⟩ := bind_eq_ok.mp hr
  rw [getEntry_ok] at hentry
  unfold Op.buffer.find
  rw [hfound]
  dsimp only
  rw [hentry]
  split at hr
  · next r' hr' =>
    cases hr
    exact hr'
  · cases hr

theorem sat_queryFindObservation (he : Ext P b h) (path : CString) :
    Sat Bad (queryFindObservation P h path) fun _ => True := by
  have hlookup : Sat Bad (queryFindObservation.lookup P h path) fun _ => True := by
    unfold queryFindObservation.lookup
    split
    · exact (sat_resTreeFindEntry he rootPtr path).mono fun _ _ => trivial
    · split
      · exact trivial
      · refine (sat_resTreeFindEntry he rootPtr (ascii "obs")).bind fun found _ => ?_
        cases found with
        | none => exact trivial
        | some ns => exact (sat_resTreeFindEntry he ns path).mono fun _ _ => trivial
  refine hlookup.bind fun found _ => ?_
  cases found with
  | none => exact trivial
  | some e => exact (sat_getEntry h e).bind fun _ _ => trivial

/-- What happens to an Observation that is found in the tree. -/
theorem sat_found {α : Type} {B : Fault → Prop} {none' : Except Fault α}
    {act : EntryRef → Except Fault α} (hB : ∀ f, B f → Bad f) (he : Ext P b h) (path : CString)
    (hnone : Sat B none' fun _ => True)
    (hact : ∀ e, queryFindObservation P h path = .ok (some e) → Sat B (act e) fun _ => True) :
    Sat B (queryFindObservation P h path >>= fun found =>
      match found with
      | none => none'
      | some e => act e) fun _ => True := by
  refine ((sat_queryFindObservation he path).weaken hB).and_result.bind ?_
  rintro found ⟨_, hfound⟩
  cases found with
  | none => exact hnone
  | some e => exact hact e hfound

/-- An operation that reads the samples of a buffer fails only where the functions of `obs.c` and
the query fail. -/
theorem sat_step_reads {B : Fault → Prop} (hB : ∀ f, B f → Bad f) (he : Ext P b h) (fuel : Nat)
    (op : Op) (hread : op.reads = true)
    (hstart : ∀ r x o id startAfter script, op.buffer P h = some r → h.resources r = some x →
      x.cls = .observation o →
      Sat B (obsReadBufferJson P (obsContext h x) o id startAfter script) fun _ => True)
    (hquery : ∀ r x o query, (query.readsCurrentType = true → op.buffer P h = some r) →
      h.resources r = some x → x.cls = .observation o →
      Sat B (answerQuery P h x o query) fun _ => True)
    (hevent : ∀ r x o id hangUp script, op.buffer P h = some r → h.resources r = some x →
      x.cls = .observation o →
      Sat B (readOpFdEventHandler P x.currentType o id hangUp script) fun _ => True) :
    Sat B (step P fuel h op) fun _ => True := by
  cases op <;> cases hread
  · next obsPath startAfter nonBlocking script =>
    refine sat_found hB he obsPath trivial fun e hfound => ?_
    split
    · exact trivial
    · refine ((sat_attachedTo h e).weaken hB).and_result.bind ?_
      rintro r ⟨_, hr⟩
      dsimp only
      split
      · refine (sat_modifyObs hB fun x o hx ho => ?_).mono fun _ _ => trivial
        exact hstart r x o _ _ _ (find_of_attached hfound hr) hx ho
      · exact trivial
  · next obsPath query =>
    refine Sat.bind (Q := fun _ => True) ?_ fun _ _ => trivial
    refine sat_found hB he obsPath trivial fun e hfound => ?_
    refine ((sat_attachedTo h e).weaken hB).and_result.bind ?_
    rintro r ⟨_, hr⟩
    refine ((sat_getResource h r).weaken hB).bind fun x hx => ?_
    split
    · next o ho =>
      refine hquery r x o query (fun hq => ?_) hx ho
      simpa [Op.buffer, hq] using find_of_attached hfound hr
    · exact fun hb => hB _ hb
  · next r id hangUp script =>
    show Sat B (fdEvent P h r id hangUp script) _
    unfold fdEvent
    split
    · split
      · exact (sat_modifyObs hB fun x o hx ho => hevent r x o id hangUp script rfl hx ho).mono
          fun _ _ => trivial
      · exact trivial
    · exact trivial

theorem ext_step (fuel : Nat) (he : Ext P b h) (op : Op) :
    Returns (step P fuel h op) (Ext P b) := by
  cases hread : op.reads with
  | false => exact (sat_step_confusion fuel he op hread).weaken fun _ hb => hb.elim
  | true =>
    cases op <;> cases hread
    · exact sat_queryReadBufferJson he _ _ _ _
    · exact Returns.of_ok fun h' hq => by
        obtain ⟨_, _, hq⟩ := bind_eq_ok.mp hq
        cases hq
        exact he
    · exact sat_fdEvent he _ _ _ _

/-- Every state is reached from the first one by atomic changes. -/
theorem reachable_ext (hr : Reachable P h) : ∃ env files, Ext P (boot env files) h := by
  induction hr with
  | boot env files => exact ⟨env, files, .refl (wellFormed_boot env files)⟩
  | step fuel op hr hs ih =>
    obtain ⟨env, files, he⟩ := ih
    exact ⟨env, files, (ext_step fuel he op).result hs⟩

theorem reachable_wellFormed (hr : Reachable P h) : WellFormed h := by
  obtain ⟨_, _, he⟩ := reachable_ext hr
  exact he.wf

end MangOH.DataHub
