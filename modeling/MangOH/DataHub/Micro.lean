import MangOH.DataHub.HandlerCalls
import MangOH.DataHub.PushOutcome
import MangOH.DataHub.Service
import MangOH.Lib.Links

/-! The atomic changes that every operation of the hub is made of. -/
namespace MangOH.DataHub

variable {P : Platform}

/-- The resource after a push: a sample that got through becomes the current value. -/
def Pushed.accepted (p : Pushed) : Resource :=
  match p.sample with
  | none => p.res
  | some (t, s) => p.res.accept t s

/-- `fallback`, for a resource of the right class. -/
def Resource.fallback (x : Resource) : Option (DataType × DataSample) :=
  match usable x.pushedValue x.pushedType with
  | some s => some (x.pushedType, s)
  | none => (usable x.defaultValue x.defaultType).map fun s => (x.defaultType, s)
where
  usable (value : Option DataSample) (t : DataType) : Option DataSample :=
    if x.acceptable t then value else none

/-- The resource after `res_RemoveOverride`. -/
def Resource.unoverride (x : Resource) : Resource :=
  if x.overrideValue.isNone then x
  else match x.fallback with
    | some (t, s) => { x with overrideValue := none }.accept t s
    | none => { x with overrideValue := none }

/-- `operatesOnDefault`, for a resource of the right class. -/
def Resource.operatesOnDefault (x : Resource) : Bool :=
  !x.overridden && (x.pushedValue.isNone || !x.acceptable x.pushedType)

/-- The resource after `res_SetDefault`. -/
def Resource.withDefault (x : Resource) (t : DataType) (s : DataSample) : Resource :=
  let x := { x with defaultValue := some s, defaultType := t }
  if x.operatesOnDefault then x.accept t s else x

/-- The resource after `res_SetOverride`. -/
def Resource.withOverride (x : Resource) (t : DataType) (s : DataSample) : Resource :=
  { x with overrideValue := some s, overrideType := t }.accept t s

/-- What one function of the hub does to one resource `r` attached to an entry of type `et`, and
what it logs. `updating` is `IsUpdateInProgress`. -/
inductive Edit (P : Platform) (r : ResRef) (updating : Bool) (et : EntryType) (x : Resource) :
    List Event → Resource → Prop
  | push (ctx : ObsContext) (t : DataType) (u : CString) (s : DataSample) (hs : s.type = t)
      (p : Pushed) (hctx : ctx.currentType = x.currentType) (hp : PushOutcome P et x u p)
      (hlocal : resPushLocal P ctx et x t u s = .ok p) :
      Edit P r updating et x
        (.receiving r et s :: .pushing r ctx x t u s :: p.events.map (.obs r)) p.accepted
  | override (t : DataType) (s : DataSample) (hs : s.type = t) (hv : s.via = [])
      (hh : s.hops = 1) : Edit P r updating et x [] (x.withOverride t s)
  | unoverride : Edit P r updating et x [.unoverriding et x] x.unoverride
  | default (t : DataType) (s : DataSample) (hs : s.type = t) (hv : s.via = [])
      (hh : s.hops = 1) : Edit P r updating et x [] (x.withDefault t s)
  | undefault : Edit P r updating et x [] { x with defaultValue := none }
  | jsonExample (s : DataSample) (hs : s.type = .json) :
      Edit P r updating et x [] { x with jsonExample := some s }
  | clearUnits (hio : et.isIo = false) : Edit P r updating et x [] (setUnits P x [])
  | optional (t : DataType) (mandatory : Bool) (hx : x.cls = .ioPoint t mandatory) :
      Edit P r updating et x [] { x with cls := .ioPoint t false }
  | observe {o o' : Observation} {evs : List ObsEvent} (hx : x.cls = .observation o)
      (ho : ObsStep P o evs o') (hkept : o'.samples ⊆ o.samples)
      (hlast : o'.lastPushTime = o.lastPushTime) :
      Edit P r updating et x (evs.map (.obs r)) { x with cls := .observation o' }
  /-- a filter or the transform is set; the latter also drops the pushed value -/
  | configure {o o' : Observation} {evs : List ObsEvent} (hx : x.cls = .observation o)
      (ho : ObsStep P o evs o') (setting : Setting)
      (hset : setting = .filter ∨ setting = .transform) (pushedValue : Option DataSample)
      (hp : pushedValue = x.pushedValue ∨ setting = .transform ∧ pushedValue = none)
      (hkept : o'.samples ⊆ o.samples)
      (hlast : o'.lastPushTime = o.lastPushTime) :
      Edit P r updating et x (evs.map (.obs r) ++ [.configured r setting updating])
        { x with
          cls := .observation o'
          pushedValue
          isConfigChanging := updating || x.isConfigChanging }
  | extraction {o o' : Observation} {evs : List ObsEvent} (hx : x.cls = .observation o)
      (ho : ObsStep P o evs o') (hkept : o'.samples ⊆ o.samples)
      (hlast : o'.lastPushTime = o.lastPushTime) :
      Edit P r updating et x (evs.map (.obs r) ++ [.configured r .jsonExtraction updating])
        { x with cls := .observation o' }
  | flag :
      Edit P r updating et x [.configured r .route updating]
        { x with isConfigChanging := updating || x.isConfigChanging }
  | resume (hup : updating = false) :
      Edit P r updating et x [] { x with isConfigChanging := false }
  | restore (env : Environment) (content : Bytes) {o : Observation} {evs : List ObsEvent}
      {newest : Option DataSample} (hx : x.cls = .observation obsCreate)
      (h : obsRestoreContent env obsCreate content = .ok (o, evs, newest)) :
      Edit P r updating et x (.restoring r env content :: evs.map (.obs r))
        { x with cls := .observation o }

/-- The names that entries can have. -/
def LegalName (P : Platform) (name : CString) : Prop :=
  name ≠ [] ∧ name.length < hubMaxEntryNameBytes P ∧ 0x2f ∉ name ∧ ∀ c ∈ name, isIllegal c = false

/-- A resource that has just been created for an entry. -/
inductive Created (P : Platform) (e : EntryRef) : EntryType → Resource → Prop
  | input (t : DataType) (units : CString) : Created P e .input (resCreateInput P e t units)
  | output (t : DataType) (units : CString) : Created P e .output (resCreateOutput P e t units)
  | observation : Created P e .observation (resCreateObservation e)
  | placeholder : Created P e .placeholder (resCreatePlaceholder e)

/-- The types of entries whose resource can be replaced by one of a given type. -/
inductive Replaceable : EntryType → EntryType → Prop
  | nameSpace (et' : EntryType) : Replaceable .nameSpace et'
  | placeholder (et' : EntryType) : Replaceable .placeholder et'
  | io {et : EntryType} (hio : et.isIo = true) : Replaceable et .placeholder

/-- Two states that agree on the tree, the resources, the handlers and the update flag. -/
structure SameCore (h h' : Hub) : Prop where
  entries : h'.entries = h.entries
  resources : h'.resources = h.resources
  nextEntry : h'.nextEntry = h.nextEntry
  nextRes : h'.nextRes = h.nextRes
  nextRead : h.nextRead ≤ h'.nextRead
  updating : h'.isUpdateInProgress = h.isUpdateInProgress
  handlers : h'.handlers = h.handlers
  nextHandler : h'.nextHandler = h.nextHandler
  orphanTimers : h'.orphanTimers = h.orphanTimers

/-- The events that can be logged without a change. -/
inductive Note : Event → Prop
  | called (p : HandlerRef) (timestamp : Double) (value : Argument) :
    Note (.called p timestamp value)
  | accepting (r : ResRef) (et : EntryType) (handlers : List HandlerRef) (s : DataSample) :
      Note (.accepting r et handlers s)
  | notifying (r : ResRef) (handlers : List (HandlerRef × DataType)) (s : DataSample) :
      Note (.notifying r handlers s)
  | registering (r : ResRef) (p : HandlerRef) : Note (.registering r p)
  | routing (dest src : ResRef) : Note (.routing dest src)
  | noSource (dest : ResRef) (updating : Bool) : Note (.configured dest .noSource updating)
  | treeChange (path : CString) (et : EntryType) (operation : ResourceOperation) :
      Note (.treeChange path et operation)
  | readRefused (id : Nat) : Note (.readRefused id)

/-- The sequences of events that are logged at once without a change: handlers are called in a row
for one sample. -/
inductive Notes (P : Platform) (h : Hub) : List Event → Prop
  | nil : Notes P h []
  | accept {r : ResRef} {x : Resource} {entry : Entry} (hx : h.resources r = some x)
      (he : h.entries x.entryRef = some entry) (s : DataSample) (hs : x.currentValue = some s) :
      Notes P h [.accepting r entry.type x.pushHandlerList s]
  | update (r : ResRef) (list : List HandlerRef) (s : DataSample) :
      Notes P h (.notifying r (h.registered list) s ::
        (h.registered list).filterMap (handlerCallOf P s))
  | register (p : HandlerRef) (handler : Handler) (hp : h.handlers p = some handler)
      (value : Option DataSample) :
      Notes P h (.registering handler.listPtr p ::
        (value.bind fun s => handlerCallOf P s (p, handler.dataType)).toList)
  | routing (dest src : ResRef) : Notes P h [.routing dest src]
  | noSource (dest : ResRef) (updating : Bool) : Notes P h [.configured dest .noSource updating]
  | treeChange (path : CString) (et : EntryType) (operation : ResourceOperation) :
      Notes P h [.treeChange path et operation]
  | readRefused (id : Nat) : Notes P h [.readRefused id]

theorem Notes.note {P : Platform} {h : Hub} {evs : List Event} (hn : Notes P h evs) :
    ∀ e ∈ evs, Note e := by
  have hcall : ∀ s handler e, handlerCallOf P s handler = some e → Note e := by
    intro s handler e he
    obtain ⟨value, _, rfl⟩ := Option.map_eq_some_iff.mp he
    exact .called _ _ _
  intro e he
  cases hn with
  | nil => cases he
  | accept => exact List.mem_singleton.mp he ▸ .accepting _ _ _ _
  | update r list s =>
    rcases List.mem_cons.mp he with rfl | he
    · exact .notifying _ _ _
    · obtain ⟨handler, _, hc⟩ := List.mem_filterMap.mp he
      exact hcall s handler e hc
  | register p handler hp value =>
    rcases List.mem_cons.mp he with rfl | he
    · exact .registering _ p
    · obtain ⟨s, _, hc⟩ := Option.bind_eq_some_iff.mp (Option.mem_toList.mp he)
      exact hcall s _ e hc
  | routing dest src => exact List.mem_singleton.mp he ▸ .routing dest src
  | noSource dest updating => exact List.mem_singleton.mp he ▸ .noSource dest updating
  | treeChange path et operation => exact List.mem_singleton.mp he ▸ .treeChange path et operation
  | readRefused id => exact List.mem_singleton.mp he ▸ .readRefused id

/-- The reads of an Observation, oldest first. -/
def Resource.readOps (x : Resource) : List ReadOperation :=
  match x.cls with
  | .observation o => o.readOpList
  | _ => []

/-- Handlers are freed. -/
def Hub.dropHandlers (h : Hub) (list : List HandlerRef) : Hub :=
  list.foldl (fun h p => h.setHandler p none) h

/-- A handler is registered on a resource. -/
def Hub.addHandler (h : Hub) (r : ResRef) (x : Resource) (t : DataType) : Hub :=
  { (h.setHandler h.nextHandler (some ⟨t, r⟩)).setResource r
      { x with pushHandlerList := x.pushHandlerList ++ [h.nextHandler] } with
    nextHandler := h.nextHandler + 1 }

/-- A handler is taken off the list that it points at, the one of `r`, and freed. -/
def Hub.removeHandler (h : Hub) (p : HandlerRef) (r : ResRef) (x : Resource) : Hub :=
  (h.setResource r { x with pushHandlerList := x.pushHandlerList.erase p }).setHandler p none

/-- The backup timer of an Observation is running. -/
def Resource.backupTimer (x : Resource) : Bool :=
  match x.cls with
  | .observation o => o.backupTimer
  | _ => false

/-- A resource is freed with its handlers; a running backup timer is left behind. -/
def freed (h : Hub) (r : ResRef) (x : Resource) : Hub :=
  { h with
    resources := Function.update h.resources r none
    handlers := fun p => if p ∈ x.pushHandlerList then none else h.handlers p
    orphanTimers := if x.backupTimer then r :: h.orphanTimers else h.orphanTimers }

/-- Moreover its entry becomes a Namespace. -/
def removed (h : Hub) (r : ResRef) (x : Resource) (entry : Entry) : Hub :=
  { freed h r x with
    entries := Function.update h.entries x.entryRef
      (some { entry with resourcePtr := none, type := .nameSpace }) }

/-- What an Observation does when it is freed. -/
def Freed (evs : List ObsEvent) : Prop :=
  ∀ ev ∈ evs, (∃ timer, ev = .destructing timer) ∨ (∃ path, ev = .unlinked path) ∨
    ∃ op result, ev = .readDone op result

inductive Micro (P : Platform) (h : Hub) : Hub → Prop
  | ambient {h' : Hub} (hsame : SameCore h h') (evs : List Event) (hnote : Notes P h evs)
      (hlog : h'.log = h.log ++ evs) : Micro P h h'
  | startUpdate : Micro P h (resStartUpdate h)
  | endUpdate : Micro P h { h.emit .endingUpdate with isUpdateInProgress := false }
  | edit {h' : Hub} {r : ResRef} {x x' : Resource} {entry : Entry} {evs : List Event}
      (hx : h.resources r = some x) (he : h.entries x.entryRef = some entry)
      (hedit : Edit P r h.isUpdateInProgress entry.type x evs x')
      (hreads : ∀ op ∈ x'.readOps, op.id < h.nextRead)
      (hsame : SameCore (h.setResource r x') h') (hlog : h'.log = h.log ++ evs) : Micro P h h'
  | addHandler {r : ResRef} {x : Resource} (hx : h.resources r = some x) (t : DataType) :
      Micro P h (h.addHandler r x t)
  | removeHandler {p : HandlerRef} {handler : Handler} {x : Resource}
      (hp : h.handlers p = some handler) (hx : h.resources handler.listPtr = some x) :
      Micro P h (h.removeHandler p handler.listPtr x)
  | unlink {h' : Hub} (dest : ResRef) (hu : unlinkSource h dest = .ok h') : Micro P h h'
  | link {h' : Hub} {d : Resource} (dest src : ResRef) (fuel : Nat)
      (hd : h.resources dest = some d) (hnone : d.srcPtr = none)
      (hloop : canGetThereFromHere h src fuel dest = .ok false)
      (hl : linkSource (h.emit (.routing dest src)) dest src = .ok h') : Micro P h h'
  | addChild {h' : Hub} {c : EntryRef} (parent : EntryRef) (name : CString)
      (ha : addChild P h parent name = .ok (h', c)) (hname : LegalName P name)
      (hnew : resTreeFindChild h parent name = .ok none) : Micro P h h'
  | replace {h' : Hub} {e : EntryRef} {r : ResRef} {entry : Entry} {et : EntryType} {y : Resource}
      (he : h.entries e = some entry) (hre : Replaceable entry.type et) (hy : Created P e et y)
      (hr : replaceResource P h e y et = .ok (h', r)) : Micro P h h'
  | remove {h₁ h' : Hub} {r : ResRef} {x : Resource} {entry : Entry} {evs : List ObsEvent}
      (hx : h.resources r = some x) (he : h.entries x.entryRef = some entry)
      (hsrc : x.srcPtr = none) (hdest : x.destList = [])
      (hsame : SameCore (removed h r x entry) h₁)
      (hlog : h₁.log = h.log ++ evs.map (.obs r)) (hfreed : Freed evs)
      (hrel : releaseEntry (x.entryRef + 1) h₁ x.entryRef = .ok h')
      (htimer : ∀ o, x.cls = .observation o → .destructing o.backupTimer ∈ evs) : Micro P h h'

/-- What holds of every resource, given the type of its entry. -/
def Each (I : EntryType → Resource → Prop) (h : Hub) : Prop :=
  ∀ r x entry, h.resources r = some x → h.entries x.entryRef = some entry → I entry.type x

/-- Entries and resources refer to each other, and numbers are given out in order. -/
structure Attached (h : Hub) : Prop where
  entryOf : ∀ r x, h.resources r = some x →
    ∃ entry, h.entries x.entryRef = some entry ∧ entry.resourcePtr = some r
  resourceOf : ∀ e entry r, h.entries e = some entry → entry.resourcePtr = some r →
    ∃ x, h.resources r = some x ∧ x.entryRef = e
  nameSpace : ∀ e entry, h.entries e = some entry →
    (entry.type = .nameSpace ↔ entry.resourcePtr = none)
  entry_lt : ∀ e entry, h.entries e = some entry → e < h.nextEntry
  res_lt : ∀ r x, h.resources r = some x → r < h.nextRes
  reads : ∀ r x, h.resources r = some x → ∀ op ∈ x.readOps, op.id < h.nextRead

/-- The routes between resources, as their two ends record them. -/
def Hub.links (h : Hub) : Links ResRef where
  src d := (h.resources d).bind (·.srcPtr)
  dests s := ((h.resources s).map (·.destList)).getD []

/-- Moreover resources are of the right classes, samples of the types recorded for them, and the
two ends of each route agree. -/
structure WellFormed (h : Hub) : Prop extends Attached h where
  cls : Each (fun et x => ClassOk et x.cls) h
  typed : Each (fun _ x => Typed x) h
  routes : h.links.Consistent

/-- A resource without its routes. -/
def Resource.unrouted (x : Resource) : Resource := { x with srcPtr := none, destList := [] }

end MangOH.DataHub
