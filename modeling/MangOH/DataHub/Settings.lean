import MangOH.DataHub.Resource

/-! Administrative settings of resources: overrides, defaults, filters, and what happens to the
settings when a resource is replaced or destroyed. -/
namespace MangOH.DataHub

variable (P : Platform)

/-- `res_SetOverride` -/
def resSetOverride (fuel : Nat) (h : Hub) (r : ResRef) (dataType : DataType) (value : DataSample) :
    Except Fault Hub := do
  let x ← h.getResource r
  let entryType ← h.entryType x
  let value := { value with hops := 1 }
  let x := { x with overrideValue := some value, overrideType := dataType }
  let acceptable ← isAcceptable entryType x dataType
  let h := h.setResource r x
  if acceptable then updateCurrentValue P (resPush P fuel) h r dataType value else pure h

/-- The recorded value that `res_RemoveOverride` makes current: the last pushed one, else the
default. -/
def fallback (entryType : EntryType) (x : Resource) :
    Except Fault (Option (DataType × DataSample)) := do
  let pushed ← usable x.pushedValue x.pushedType
  match pushed with
  | some s => pure (some (x.pushedType, s))
  | none => do
    let default ← usable x.defaultValue x.defaultType
    pure (default.map fun s => (x.defaultType, s))
where
  usable (value : Option DataSample) (dataType : DataType) :
      Except Fault (Option DataSample) :=
    match value with
    | none => pure none
    | some s => do
      let acceptable ← isAcceptable entryType x dataType
      pure (if acceptable then some s else none)

/-- `res_RemoveOverride` -/
def resRemoveOverride (fuel : Nat) (h : Hub) (r : ResRef) : Except Fault Hub := do
  let x ← h.getResource r
  let entryType ← h.entryType x
  let h := h.emit (.unoverriding entryType x)
  if x.overrideValue.isNone then pure h
  else do
    let x := { x with overrideValue := none }
    let restored ← fallback entryType x
    let h := h.setResource r x
    match restored with
    | some (dataType, s) => updateCurrentValue P (resPush P fuel) h r dataType s
    | none => pure h

/-- The resource operates on its default value: no compatible override or pushed value. -/
def operatesOnDefault (entryType : EntryType) (x : Resource) : Except Fault Bool := do
  let overridden ← resIsOverridden entryType x
  if overridden then pure false
  else if x.pushedValue.isNone then pure true
  else do
    let acceptable ← isAcceptable entryType x x.pushedType
    pure (!acceptable)

/-- `res_SetDefault` -/
def resSetDefault (fuel : Nat) (h : Hub) (r : ResRef) (dataType : DataType) (value : DataSample) :
    Except Fault Hub := do
  let x ← h.getResource r
  let entryType ← h.entryType x
  let value := { value with hops := 1 }
  let x := { x with defaultValue := some value, defaultType := dataType }
  let acceptable ← isAcceptable entryType x dataType
  let onDefault ← operatesOnDefault entryType x
  let h := h.setResource r x
  if acceptable && onDefault then updateCurrentValue P (resPush P fuel) h r dataType value
  else pure h

/-- `res_RemoveDefault` -/
def resRemoveDefault (h : Hub) (r : ResRef) : Except Fault Hub :=
  h.modifyResource r fun x => { x with defaultValue := none }

/-- Apply a function of `obs.c` to an Observation. -/
def modifyObs (h : Hub) (r : ResRef)
    (f : ObsContext → Observation → Except Fault (Observation × List ObsEvent)) :
    Except Fault Hub := do
  let x ← h.getResource r
  match x.cls with
  | .observation o => do
    let (o, events) ← f (obsContext h x) o
    pure ((h.emitObs r events).setResource r { x with cls := .observation o })
  | _ => .error .badDowncast

/-- The filter setters `res_SetMinPeriod`, `res_SetHighLimit`, `res_SetLowLimit` and
`res_SetChangeBy` set one field of the Observation and flag the change of configuration. -/
def setFilter (set : Observation → Observation) (h : Hub) (r : ResRef) : Except Fault Hub := do
  let h ← modifyObs h r fun _ o => pure (set o, [])
  flagConfigChange h r .filter

def resSetMinPeriod (h : Hub) (r : ResRef) (minPeriod : Double) : Except Fault Hub :=
  setFilter (fun o => { o with minPeriod }) h r

def resSetHighLimit (h : Hub) (r : ResRef) (highLimit : Double) : Except Fault Hub :=
  setFilter (fun o => { o with highLimit }) h r

def resSetLowLimit (h : Hub) (r : ResRef) (lowLimit : Double) : Except Fault Hub :=
  setFilter (fun o => { o with lowLimit }) h r

def resSetChangeBy (h : Hub) (r : ResRef) (changeBy : Double) : Except Fault Hub :=
  setFilter (fun o => { o with changeBy }) h r

/-- `res_SetTransform` -/
def resSetTransform (h : Hub) (r : ResRef) (transformType : TransformType) : Except Fault Hub := do
  let h ← modifyObs h r fun _ o => obsSetTransform o transformType
  let h ← h.modifyResource r fun x => { x with pushedValue := none }
  flagConfigChange h r .transform

/-- `res_SetBufferMaxCount` -/
def resSetBufferMaxCount (h : Hub) (r : ResRef) (count : UInt32) : Except Fault Hub :=
  modifyObs h r fun ctx o => obsSetBufferMaxCount P ctx o count

/-- `res_SetBufferBackupPeriod` -/
def resSetBufferBackupPeriod (h : Hub) (r : ResRef) (seconds : UInt32) : Except Fault Hub :=
  modifyObs h r fun ctx o => obsSetBufferBackupPeriod P ctx o seconds

/-- `res_SetJsonExtraction`, which asserts that the specifier fits. -/
def resSetJsonExtraction (h : Hub) (r : ResRef) (extractionSpec : CString) :
    Except Fault Hub := do
  let h ← modifyObs h r fun _ o =>
    if extractionSpec.length ≤ adminMaxJsonExtractorLen then
      pure ({ o with jsonExtraction := extractionSpec }, [])
    else .error .fatal
  pure (h.configured r .jsonExtraction)

/-- `res_MarkOptional` -/
def resMarkOptional (h : Hub) (r : ResRef) : Except Fault Hub := do
  let x ← h.getResource r
  match x.cls with
  | .ioPoint dataType _ => pure (h.setResource r { x with cls := .ioPoint dataType false })
  | _ => .error .badDowncast

/-- `res_RestoreBackup`, `obs_RestoreBackup` -/
def resRestoreBackup (fuel : Nat) (h : Hub) (r : ResRef) : Except Fault Hub := do
  let x ← h.getResource r
  match getBackupFilePath P (maxBackupFilePathBytes P) (obsContext h x) with
  | none => pure h
  | some path =>
    match (if h.env.fileSystemUp then h.file path else none) with
    | none => pure h
    | some content =>
      match x.cls with
      | .observation o => do
        let (o, events, newest) ← obsRestoreContent h.env o content
        let h := ((h.emit (.restoring r h.env content)).emitObs r events).setResource r
          { x with cls := .observation o }
        match newest with
        | some s => resPush P fuel h r o.bufferedType [] s
        | none => pure h
      | _ => .error .badDowncast

/-- `res_HasAdminSettings` -/
def resHasAdminSettings (x : Resource) : Bool :=
  x.srcPtr.isSome || !x.destList.isEmpty || x.overrideValue.isSome || x.defaultValue.isSome
    || !x.pushHandlerList.isEmpty

/-- What `res_MoveAdminSettings` moves besides the routes. -/
def moveValues (src dest : Resource) (replacementType : EntryType) : Resource :=
  let dest :=
    if replacementType.isIo then
      if src.currentType = dest.currentType then { dest with currentValue := src.currentValue }
      else dest
    else
      { setUnits P dest src.units with
        currentType := src.currentType, currentValue := src.currentValue }
  { dest with
    pushedType := src.pushedType
    pushedValue := src.pushedValue
    overrideType := src.overrideType
    overrideValue := src.overrideValue
    defaultType := src.defaultType
    defaultValue := src.defaultValue
    isConfigChanging := src.isConfigChanging
    pushHandlerList := dest.pushHandlerList ++ src.pushHandlerList }

/-- What is left of a resource whose values have been moved away. -/
def Resource.emptied (x : Resource) : Resource :=
  { x with
    currentValue := none
    pushedValue := none
    overrideValue := none
    defaultValue := none
    pushHandlerList := [] }

def moveSource (h : Hub) (src dest : ResRef) : Except Fault Hub := do
  let x ← h.getResource src
  match x.srcPtr with
  | none => pure h
  | some source => do
    let h ← h.modifyResource dest fun d => { d with srcPtr := some source }
    let h ← h.modifyResource src fun s => { s with srcPtr := none }
    h.modifyResource source fun p => { p with destList := p.destList.erase src ++ [dest] }

/-- Move the routes in `dests` one by one, from the head of the old resource's list. -/
def moveDests (src dest : ResRef) : Hub → List ResRef → Except Fault Hub
  | h, [] => pure h
  | h, d :: rest => do
    let h ← h.modifyResource src fun s => { s with destList := rest }
    let h ← h.modifyResource dest fun x => { x with destList := x.destList ++ [d] }
    let h ← h.modifyResource d fun x => { x with srcPtr := some dest }
    moveDests src dest h rest

/-- `res_MoveAdminSettings` -/
def resMoveAdminSettings (h : Hub) (src dest : ResRef) (replacementType : EntryType) :
    Except Fault Hub := do
  let s ← h.getResource src
  let d ← h.getResource dest
  let h := (h.setResource src s.emptied).setResource dest (moveValues P s d replacementType)
  let h ← moveSource h src dest
  let s ← h.getResource src
  moveDests src dest h s.destList

/-- `while` the resource has destinations, take the route to the first one away. -/
def dropDestinations : Nat → Hub → ResRef → Except Fault Hub
  | 0, _, _ => .error .outOfFuel
  | fuel + 1, h, r => do
    let x ← h.getResource r
    match x.destList with
    | [] => pure h
    | dest :: _ => do
      let h ← resSetSource P fuel h dest none
      dropDestinations fuel h.1 r

/-- `DropSettings` -/
def dropSettings (fuel : Nat) (h : Hub) (r : ResRef) : Except Fault Hub := do
  let h ← h.modifyResource r fun x => { x with currentValue := none, pushedValue := none }
  let h ← resSetSource P fuel h r none
  let h ← dropDestinations P fuel h.1 r
  h.modifyResource r fun x =>
    { x with overrideValue := none, defaultValue := none, jsonExample := none }

/-- What `ObservationDestructor` does besides `res_Destruct`. -/
def destructObs (h : Hub) (r : ResRef) (x : Resource) (o : Observation) : Hub :=
  let removed := if 0 < o.backupPeriod then deleteBackup P (obsContext h x) else []
  let ended := o.readOpList.map fun op =>
    ObsEvent.readDone { op with nextEntryPtr := none } .commError
  let h := h.emitObs r (.destructing o.backupTimer :: (removed ++ ended))
  if o.backupTimer then { h with orphanTimers := r :: h.orphanTimers } else h

/-- `le_mem_Release` of a resource, which runs the destructor of its class. -/
def releaseResource (h : Hub) (r : ResRef) : Except Fault Hub := do
  let x ← h.getResource r
  let h := match x.cls with
    | .observation o => destructObs P h r x o
    | _ => h
  if x.srcPtr.isSome ∨ x.destList ≠ [] then .error .routeAssertion
  else
    let h := x.pushHandlerList.foldl (fun h p => h.setHandler p none) h
    pure (h.freeResource r)

/-- `res_DeleteObservation` -/
def resDeleteObservation (fuel : Nat) (h : Hub) (r : ResRef) : Except Fault Hub := do
  let h ← dropSettings P fuel h r
  releaseResource P h r

/-- `res_AddPushHandler` -/
def resAddPushHandler (h : Hub) (r : ResRef) (dataType : DataType) :
    Except Fault (Hub × HandlerRef) := do
  let p := h.nextHandler
  let h := { h.setHandler p (some ⟨dataType, r⟩) with nextHandler := p + 1 }
  let h ← h.modifyResource r fun x => { x with pushHandlerList := x.pushHandlerList ++ [p] }
  pure (h, p)

/-- `handler_Remove`, which takes the handler off the list it was first added to. -/
def handlerRemove (h : Hub) (p : HandlerRef) : Except Fault Hub :=
  match h.handlers p with
  | none => pure h
  | some handler => do
    let h ← h.modifyResource handler.listPtr fun x =>
      { x with pushHandlerList := x.pushHandlerList.erase p }
    pure (h.setHandler p none)

end MangOH.DataHub
