import MangOH.DataHub.State

/-! The methods of the resource base class: routes, pushes, overrides and defaults. -/
namespace MangOH.DataHub

variable (P : Platform)

/-- `res_Construct` -/
def resConstruct (entryRef : EntryRef) (cls : ResourceClass) : Resource where
  entryRef
  units := []
  currentValue := none
  currentType := .trigger
  pushedValue := none
  pushedType := .trigger
  srcPtr := none
  destList := []
  overrideValue := none
  overrideType := .trigger
  defaultValue := none
  defaultType := .trigger
  isConfigChanging := false
  pushHandlerList := []
  jsonExample := none
  cls

/-- `SetUnits` -/
def setUnits (x : Resource) (units : CString) : Resource :=
  { x with units := leUtf8Copy P hubMaxUnitsBytes units }

/-- `res_CreateInput` -/
def resCreateInput (entryRef : EntryRef) (dataType : DataType) (units : CString) : Resource :=
  setUnits P { resConstruct entryRef (.ioPoint dataType false) with currentType := dataType } units

/-- `res_CreateOutput` -/
def resCreateOutput (entryRef : EntryRef) (dataType : DataType) (units : CString) : Resource :=
  setUnits P { resConstruct entryRef (.ioPoint dataType true) with currentType := dataType } units

/-- `res_CreateObservation` -/
def resCreateObservation (entryRef : EntryRef) : Resource :=
  resConstruct entryRef (.observation obsCreate)

/-- `res_CreatePlaceholder` -/
def resCreatePlaceholder (entryRef : EntryRef) : Resource :=
  resConstruct entryRef .placeholder

/-- `ioPoint_GetDataType` -/
def ioPointGetDataType (x : Resource) : Except Fault DataType :=
  match x.cls with
  | .ioPoint dataType _ => .ok dataType
  | _ => .error .badDowncast

/-- `IsAcceptable` -/
def isAcceptable (entryType : EntryType) (x : Resource) (dataType : DataType) :
    Except Fault Bool :=
  if entryType.isIo then do
    let fixed ← ioPointGetDataType x
    pure (decide (dataType = fixed))
  else pure true

/-- `res_IsOverridden` -/
def resIsOverridden (entryType : EntryType) (x : Resource) : Except Fault Bool :=
  if x.overrideValue.isNone then pure false
  else isAcceptable entryType x x.overrideType

def obsContext (h : Hub) (x : Resource) : ObsContext where
  env := h.env
  obsPath := obsPathOf h x.entryRef
  currentType := x.currentType

/-- A resource on which `res_Push` has been at work, and the sample it goes on with, if any. -/
structure Pushed where
  res : Resource
  events : List ObsEvent
  sample : Option (DataType × DataSample)

/-- The first part of `res_Push`, for Observations: extraction, buffering, transform, filters. -/
def obsAdmit (ctx : ObsContext) (x : Resource) (o : Observation) (dataType : DataType)
    (s : DataSample) : Except Fault Pushed := do
  match ← obsDoJsonExtraction P ctx.env o dataType s with
  | none => pure ⟨x, [], none⟩
  | some (dataType, s) => do
    let (o, events) ← obsProcessAccepted P ctx o dataType s
    let s ← obsApplyTransform P ctx.env o dataType s
    match ← obsShouldAccept P ctx o x.currentValue x.overrideValue.isSome dataType s with
    | none => pure ⟨{ x with cls := .observation o }, events, none⟩
    | some o => pure ⟨{ x with cls := .observation o }, events, some (dataType, s)⟩

def admission (ctx : ObsContext) (entryType : EntryType) (x : Resource) (dataType : DataType)
    (s : DataSample) : Except Fault Pushed :=
  match entryType with
  | .observation =>
    match x.cls with
    | .observation o => obsAdmit P ctx x o dataType s
    | _ => .error .badDowncast
  | _ => pure ⟨x, [], some (dataType, s)⟩

/-- The sample and the units that `res_Push` goes on with if an override is in effect. -/
def applyOverride (entryType : EntryType) (x : Resource) (dataType : DataType) (units : CString)
    (s : DataSample) : Except Fault (DataType × CString × DataSample) := do
  let overridden ← resIsOverridden entryType x
  match overridden, x.overrideValue with
  | true, some value => do
    let overrideSample ← dataSampleCopy x.overrideType value
    pure (x.overrideType, [], dataSampleSetTimestamp overrideSample s.timestamp)
  | _, _ => pure (dataType, units, s)

/-- The last part of `res_Push` before the current value is updated: units and coercion. -/
def conform (env : Environment) (entryType : EntryType) (x : Resource) (dataType : DataType)
    (units : CString) (s : DataSample) :
    Except Fault (Resource × Option (DataType × DataSample)) :=
  match entryType with
  | .input | .output =>
    if units ≠ [] ∧ x.units ≠ [] ∧ units ≠ x.units then pure (x, none)
    else do
      let fixed ← ioPointGetDataType x
      let coerced ← doTypeCoercion P env fixed dataType s
      pure (x, some (fixed, coerced))
  | .observation | .placeholder =>
    pure (if units = [] then x else setUnits P x units, some (dataType, s))
  | .nameSpace => .error .fatal

/-- What `res_Push` does to the resource itself, up to the update of its current value. Units that
are NULL or "" are both []. -/
def resPushLocal (ctx : ObsContext) (entryType : EntryType) (x : Resource) (dataType : DataType)
    (units : CString) (s : DataSample) : Except Fault Pushed := do
  let admitted ← admission P ctx entryType x dataType { s with via := units }
  match admitted.sample with
  | none => pure admitted
  | some (dataType, s) =>
    let s := { s with hops := s.hops + 1 }
    let x := { admitted.res with pushedValue := some s, pushedType := dataType }
    if x.isConfigChanging then pure ⟨x, admitted.events, none⟩
    else do
      let (dataType, units, s) ← applyOverride entryType x dataType units s
      let conformed ← conform P ctx.env entryType x dataType units s
      pure ⟨conformed.1, admitted.events, conformed.2⟩

/-- The new current value of a resource, and the JSON example value that goes with it. -/
def Resource.install (x : Resource) (dataType : DataType) (s : DataSample) : Resource :=
  { x with
    currentType := dataType
    currentValue := some s
    jsonExample := if dataType = .json then x.jsonExample.or (some s) else none }

/-- `CallPushHandler`: the call made to the app, if any. -/
def callPushHandler (p : HandlerRef) (handler : Handler) (dataType : DataType) (s : DataSample) :
    Except Fault (Option Event) :=
  if handler.dataType = dataType then
    match dataType with
    | .trigger => pure (some (.called p s.timestamp .trigger))
    | .boolean => do
      let value ← dataSampleGetBoolean s
      pure (some (.called p s.timestamp (.boolean value)))
    | .numeric => do
      let value ← dataSampleGetNumeric s
      pure (some (.called p s.timestamp (.numeric value)))
    | .string => do
      let value ← dataSampleGetString s
      pure (some (.called p s.timestamp (.string value)))
    | .json => do
      let value ← dataSampleGetJson s
      pure (some (.called p s.timestamp (.json value)))
  else if handler.dataType = .string then do
    let value ← dataSampleConvertToString P s dataType ioMaxStringValueLen
    pure (value.map fun text => .called p s.timestamp (.string text))
  else if handler.dataType = .json then do
    let value ← dataSampleConvertToJson P s dataType ioMaxStringValueLen
    pure (value.map fun text => .called p s.timestamp (.json text))
  else pure none

/-- `handler_Call` -/
def handlerCall (h : Hub) (p : HandlerRef) (dataType : DataType) (s : DataSample) :
    Except Fault Hub :=
  match h.handlers p with
  | none => .error .useAfterFree
  | some handler => do
    match ← callPushHandler P p handler dataType s with
    | some call => pure (h.emit call)
    | none => pure h

/-- `handler_CallAll` -/
def handlerCallAll (h : Hub) (list : List HandlerRef) (dataType : DataType) (s : DataSample) :
    Except Fault Hub :=
  list.foldlM (fun h p => handlerCall P h p dataType s) h

/-- `UpdateCurrentValue`, in terms of the `res_Push` that it calls for each destination. Nothing
that is called meanwhile changes a route. -/
def updateCurrentValue
    (resPush : Hub → ResRef → DataType → CString → DataSample → Except Fault Hub)
    (h : Hub) (r : ResRef) (dataType : DataType) (s : DataSample) : Except Fault Hub := do
  let x ← h.getResource r
  let entryType ← h.entryType x
  let acceptable ← isAcceptable entryType x dataType
  if !acceptable then pure h
  else do
    let h := (h.setResource r (x.install dataType s)).emit
      (.accepting r entryType x.pushHandlerList s)
    let h ← x.destList.foldlM (fun h dest => resPush h dest dataType x.units s) h
    let h := h.emit (.notifying r (h.registered x.pushHandlerList) s)
    handlerCallAll P h x.pushHandlerList dataType s

/-- `res_Push` -/
def resPush : Nat → Hub → ResRef → DataType → CString → DataSample → Except Fault Hub
  | 0, _, _, _, _, _ => .error .outOfFuel
  | fuel + 1, h, r, dataType, units, s => do
    let x ← h.getResource r
    let entryType ← h.entryType x
    let pushed ← resPushLocal P (obsContext h x) entryType x dataType units s
    let h := (h.emit (.receiving r entryType s)).emit
      (.pushing r (obsContext h x) x dataType units s)
    let h := (h.emitObs r pushed.events).setResource r pushed.res
    match pushed.sample with
    | none => pure h
    | some (dataType, s) => updateCurrentValue P (resPush fuel) h r dataType s

/-- `CanGetThereFromHere` -/
def canGetThereFromHere (h : Hub) (there : ResRef) : Nat → ResRef → Except Fault Bool
  | 0, _ => .error .outOfFuel
  | fuel + 1, here => do
    let x ← h.getResource here
    x.destList.anyM fun dest =>
      if dest = there then pure true else canGetThereFromHere h there fuel dest

/-- `res_SetJsonExample` -/
def resSetJsonExample : Nat → Hub → ResRef → DataSample → Except Fault Hub
  | 0, _, _, _ => .error .outOfFuel
  | fuel + 1, h, r, jsonExample => do
    let x ← h.getResource r
    x.destList.foldlM (fun h dest => passOn fuel h dest jsonExample)
      (h.setResource r { x with jsonExample := some jsonExample })
where
  passOn (fuel : Nat) (h : Hub) (dest : ResRef) (jsonExample : DataSample) : Except Fault Hub := do
    let d ← h.getResource dest
    let entryType ← h.entryType d
    let acceptable ← isAcceptable entryType d .json
    if acceptable then resSetJsonExample fuel h dest jsonExample else pure h

/-- Take the route into a resource out of the graph. -/
def unlinkSource (h : Hub) (dest : ResRef) : Except Fault Hub := do
  let d ← h.getResource dest
  match d.srcPtr with
  | none => pure h
  | some src => do
    let h ← h.modifyResource src fun x => { x with destList := x.destList.erase dest }
    h.modifyResource dest fun x => { x with srcPtr := none }

/-- Add a route to the graph, at the end of the source's list. -/
def linkSource (h : Hub) (dest src : ResRef) : Except Fault Hub := do
  let h ← h.modifyResource src fun x => { x with destList := x.destList ++ [dest] }
  h.modifyResource dest fun x => { x with srcPtr := some src }

/-- The propagation of the source's JSON example value over a new route. -/
def propagateExample (fuel : Nat) (h : Hub) (dest src : ResRef) : Except Fault Hub := do
  let x ← h.getResource src
  match x.jsonExample with
  | none => pure h
  | some jsonExample => resSetJsonExample.passOn fuel h dest jsonExample

/-- The flag that suspends a resource whose configuration changes during an update. -/
def flagConfigChange (h : Hub) (r : ResRef) (setting : Setting) : Except Fault Hub := do
  let updating := h.isUpdateInProgress
  (h.configured r setting).modifyResource r fun x =>
    if updating then { x with isConfigChanging := true } else x

/-- The units of Observations and Placeholders go with their source. -/
def clearUnits (h : Hub) (dest : ResRef) : Except Fault Hub := do
  let d ← h.getResource dest
  let entryType ← h.entryType d
  if entryType = .observation ∨ entryType = .placeholder then
    pure (h.setResource dest (setUnits P d []))
  else pure h

/-- `res_SetSource` -/
def resSetSource (fuel : Nat) (h : Hub) (dest : ResRef) (src : Option ResRef) :
    Except Fault (Hub × LeResult) := do
  let d ← h.getResource dest
  if d.srcPtr = src then pure (h, .ok)
  else do
    let h ← unlinkSource h dest
    match src with
    | none => do
      let h ← clearUnits P h dest
      pure (h.configured dest .noSource, .ok)
    | some src => do
      let h := h.emit (.routing dest src)
      let loop ← canGetThereFromHere h src fuel dest
      if loop then
        pure (if d.srcPtr.isSome then h.configured dest .noSource else h, .duplicate)
      else do
        let h ← linkSource h dest src
        let h ← propagateExample fuel h dest src
        let h ← flagConfigChange h src .route
        let h ← flagConfigChange h dest .route
        pure (h, .ok)

end MangOH.DataHub
