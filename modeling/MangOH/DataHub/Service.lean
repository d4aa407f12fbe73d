import MangOH.DataHub.ResTree

/-! The I/O, Admin and Query services of the hub, and the hub as a transition system. A client that
breaks a rule of the API is killed (`LE_KILL_CLIENT`), which leaves the hub as it is. -/
namespace MangOH.DataHub

variable (P : Platform)

/-- `hub_GetClientNamespace` -/
def hubGetClientNamespace (h : Hub) (session : Nat) : Except Fault (Hub × Option EntryRef) :=
  match h.sessions session with
  | some ns => pure (h, some ns)
  | none =>
    match P.appName session with
    | none => pure (h, none)
    | some appName => do
      let (h, app) ← resTreeGetEntry P h rootPtr (ascii "app")
      match app with
      | none => .error .nullDeref
      | some app => do
        let (h, ns) ← resTreeGetEntry P h app appName
        pure ({ h with sessions := Function.update h.sessions session ns }, ns)

/-- `FindResource` of the I/O service. -/
def ioFindResource (h : Hub) (session : Nat) (path : CString) :
    Except Fault (Hub × Option EntryRef) := do
  let (h, ns) ← hubGetClientNamespace P h session
  match ns with
  | none => pure (h, none)
  | some ns => do
    match ← resTreeFindEntry P h ns path with
    | none => pure (h, none)
    | some e => do
      let entry ← h.getEntry e
      pure (h, if entry.type.isIo then some e else none)

/-- What stands in the way of creating an Input or Output: `none` if nothing does. -/
def creationConflict (h : Hub) (type : EntryType) (dataType : DataType) (units : CString) :
    Option EntryRef → Except Fault (Option LeResult)
  | none => pure none
  | some e => do
    let entry ← h.getEntry e
    match entry.type with
    | .nameSpace | .placeholder => pure none
    | .input | .output | .observation =>
      if entry.type ≠ type then pure (some .duplicate)
      else do
        let r ← attachedTo h e
        let x ← h.getResource r
        pure (some (if x.currentType = dataType ∧ units = x.units then .ok else .duplicate))

/-- `io_CreateInput` and `io_CreateOutput`. -/
def ioCreate (get : Hub → EntryRef → Except Fault (Hub × Option EntryRef)) (type : EntryType)
    (h : Hub) (session : Nat) (path : CString) (dataType : DataType) (units : CString) :
    Except Fault (Hub × LeResult) := do
  let (h, ns) ← hubGetClientNamespace P h session
  match ns with
  | none => .error .nullDeref
  | some ns => do
    let found ← resTreeFindEntry P h ns path
    match ← creationConflict h type dataType units found with
    | some result => pure (h, result)
    | none => do
      let (h, created) ← get h ns
      pure (h, if created.isSome then .ok else .fault)

def ioCreateInput (h : Hub) (session : Nat) (path : CString) (dataType : DataType)
    (units : CString) : Except Fault (Hub × LeResult) :=
  ioCreate P (fun h ns => resTreeGetInput P h ns path dataType units) .input h session path
    dataType units

def ioCreateOutput (h : Hub) (session : Nat) (path : CString) (dataType : DataType)
    (units : CString) : Except Fault (Hub × LeResult) :=
  ioCreate P (fun h ns => resTreeGetOutput P h ns path dataType units) .output h session path
    dataType units

/-- `io_DeleteResource` -/
def ioDeleteResource (h : Hub) (session : Nat) (path : CString) : Except Fault Hub := do
  let (h, found) ← ioFindResource P h session path
  match found with
  | none => pure h
  | some e => resTreeDeleteIO P h e

/-- A JSON text that does not parse is refused. -/
def isValidArgument : Argument → Bool
  | .json value => P.jsonIsValid value
  | _ => true

/-- `io_PushTrigger`, `io_PushBoolean`, `io_PushNumeric`, `io_PushString` and `io_PushJson`. -/
def ioPush (fuel : Nat) (h : Hub) (session : Nat) (path : CString) (timestamp : Double)
    (value : Argument) : Except Fault Hub := do
  let (h, found) ← ioFindResource P h session path
  match found with
  | none => pure h
  | some e =>
    if isValidArgument P value then do
      let s ← createFromArgument h.env timestamp value
      resTreePush P fuel h e value.type s
    else pure h

/-- There are functions to set Boolean, numeric, string and JSON values, but no triggers. -/
def isSettable (value : Argument) : Bool := value.type ≠ .trigger && isValidArgument P value

/-- `io_SetJsonExample` -/
def ioSetJsonExample (fuel : Nat) (h : Hub) (session : Nat) (path jsonExample : CString) :
    Except Fault Hub := do
  let (h, found) ← ioFindResource P h session path
  match found with
  | none => pure h
  | some e => do
    let entry ← h.getEntry e
    if entry.type ≠ .input then pure h
    else do
      let r ← attachedTo h e
      let x ← h.getResource r
      if x.currentType ≠ .json then pure h
      else do
        let s ← dataSampleCreateJson h.env .zero jsonExample
        resSetJsonExample fuel h r s

/-- `io_AddTriggerPushHandler` and its siblings. The handler is called at once if the resource has
a current value. -/
def ioAddPushHandler (h : Hub) (session : Nat) (path : CString) (dataType : DataType) :
    Except Fault Hub := do
  let (h, found) ← ioFindResource P h session path
  match found with
  | none => pure h
  | some e => do
    let r ← attachedTo h e
    let (h, p) ← resAddPushHandler h r dataType
    let h := h.emit (.registering r p)
    let x ← h.getResource r
    match x.currentValue with
    | some s => handlerCall P h p x.currentType s
    | none => pure h

/-- `io_MarkOptional` -/
def ioMarkOptional (h : Hub) (session : Nat) (path : CString) : Except Fault Hub := do
  let (h, found) ← ioFindResource P h session path
  match found with
  | none => pure h
  | some e => do
    let entry ← h.getEntry e
    if entry.type ≠ .output then pure h
    else do
      let r ← attachedTo h e
      resMarkOptional h r

/-- `io_SetBooleanDefault`, `io_SetNumericDefault`, `io_SetStringDefault`, `io_SetJsonDefault`. -/
def ioSetDefault (fuel : Nat) (h : Hub) (session : Nat) (path : CString) (value : Argument) :
    Except Fault Hub := do
  let (h, found) ← ioFindResource P h session path
  match found with
  | none => pure h
  | some e => do
    let r ← attachedTo h e
    let x ← h.getResource r
    if x.currentType ≠ value.type ∨ x.defaultValue.isSome ∨ !isSettable P value then pure h
    else do
      let s ← createFromArgument h.env .zero value
      resSetDefault P fuel h r value.type s

/-- `admin_PushTrigger` and its siblings. -/
def adminPush (fuel : Nat) (h : Hub) (path : CString) (timestamp : Double) (value : Argument) :
    Except Fault Hub := do
  match ← resTreeFindEntryAtAbsolutePath P h path with
  | none => pure h
  | some e =>
    if isValidArgument P value then do
      let s ← createFromArgument h.env timestamp value
      resTreePush P fuel h e value.type s
    else pure h

/-- `AddPushHandler` of the Admin and Query services, which creates missing resources. -/
def adminAddPushHandler (h : Hub) (path : CString) (dataType : DataType) : Except Fault Hub := do
  let (h, found) ← resTreeGetResource P h rootPtr path
  match found with
  | none => pure h
  | some e => do
    let r ← attachedTo h e
    let (h, _) ← resAddPushHandler h r dataType
    pure h

/-- `admin_SetSource` -/
def adminSetSource (fuel : Nat) (h : Hub) (destPath srcPath : CString) :
    Except Fault (Hub × LeResult) := do
  let (h, destEntry) ← resTreeGetResource P h rootPtr destPath
  match destEntry with
  | none => pure (h, .badParameter)
  | some destEntry => do
    let (h, srcEntry) ← resTreeGetResource P h rootPtr srcPath
    match srcEntry with
    | none => pure (h, .badParameter)
    | some srcEntry => resTreeSetSource P fuel h destEntry (some srcEntry)

/-- `resTree_FindEntryAtAbsolutePath` (or `resTree_FindEntry` from the root), `resTree_IsResource`,
and an action on the resource found. -/
def atResource (h : Hub) (found : Option EntryRef) (act : ResRef → Except Fault Hub) :
    Except Fault Hub :=
  match found with
  | none => pure h
  | some e => do
    let entry ← h.getEntry e
    match entry.resourcePtr with
    | none => pure h
    | some r => act r

/-- `admin_RemoveSource` -/
def adminRemoveSource (fuel : Nat) (h : Hub) (destPath : CString) : Except Fault Hub := do
  let found ← resTreeFindEntry P h rootPtr destPath
  atResource h found fun r => do
    let (h, _) ← resSetSource P fuel h r none
    pure h

/-- The part of an Observation's path that is relative to `/obs/`. -/
def obsRelative (path : CString) : Option CString :=
  if (ascii "/obs/").isPrefixOf path then some (path.drop 5)
  else if path.head? = some 0x2f then none
  else some path

/-- `GetObservation` of the Admin service. -/
def adminGetObservation (fuel : Nat) (h : Hub) (path : CString) :
    Except Fault (Hub × Option EntryRef) :=
  match obsRelative path with
  | none => pure (h, none)
  | some path => do
    let (h, obsNamespace) ← resTreeGetEntry P h rootPtr (ascii "obs")
    match obsNamespace with
    | none => .error .fatal
    | some obsNamespace => resTreeGetObservation P fuel h obsNamespace path

/-- `FindObservation` of the Admin service. `resTree_GetEntryType` dereferences the entry even if
none was found. -/
def adminFindObservation (h : Hub) (path : CString) : Except Fault (Hub × Option EntryRef) :=
  match obsRelative path with
  | none => pure (h, none)
  | some path => do
    let (h, obsNamespace) ← resTreeGetEntry P h rootPtr (ascii "obs")
    match obsNamespace with
    | none => .error .fatal
    | some obsNamespace => do
      match ← resTreeFindEntry P h obsNamespace path with
      | none => .error .nullDeref
      | some e => do
        let entry ← h.getEntry e
        pure (h, if entry.type = .observation then some e else none)

/-- `admin_CreateObs` -/
def adminCreateObs (fuel : Nat) (h : Hub) (path : CString) : Except Fault (Hub × LeResult) := do
  let (h, obs) ← adminGetObservation P fuel h path
  pure (h, if obs.isSome then .ok else .badParameter)

/-- `admin_DeleteObs` -/
def adminDeleteObs (fuel : Nat) (h : Hub) (path : CString) : Except Fault Hub := do
  match ← resTreeFindEntry P h rootPtr (ascii "obs") with
  | none => pure h
  | some obsNamespace => do
    match ← resTreeFindEntry P h obsNamespace path with
    | none => pure h
    | some e => resTreeDeleteObservation P fuel h e

/-- The setters of the Admin service for Observations, which create the Observation if needed. -/
def adminSet (set : Hub → ResRef → Except Fault Hub) (fuel : Nat) (h : Hub) (path : CString) :
    Except Fault Hub := do
  let (h, obs) ← adminGetObservation P fuel h path
  match obs with
  | none => pure h
  | some e => do
    let r ← attachedTo h e
    set h r

def adminSetMinPeriod (fuel : Nat) (h : Hub) (path : CString) (minPeriod : Double) :
    Except Fault Hub :=
  adminSet P (resSetMinPeriod · · minPeriod) fuel h path

def adminSetHighLimit (fuel : Nat) (h : Hub) (path : CString) (highLimit : Double) :
    Except Fault Hub :=
  adminSet P (resSetHighLimit · · highLimit) fuel h path

def adminSetLowLimit (fuel : Nat) (h : Hub) (path : CString) (lowLimit : Double) :
    Except Fault Hub :=
  adminSet P (resSetLowLimit · · lowLimit) fuel h path

def adminSetChangeBy (fuel : Nat) (h : Hub) (path : CString) (change : Double) :
    Except Fault Hub :=
  adminSet P (resSetChangeBy · · change) fuel h path

def adminSetTransform (fuel : Nat) (h : Hub) (path : CString) (transformType : TransformType) :
    Except Fault Hub :=
  adminSet P (resSetTransform · · transformType) fuel h path

def adminSetBufferMaxCount (fuel : Nat) (h : Hub) (path : CString) (count : UInt32) :
    Except Fault Hub :=
  adminSet P (resSetBufferMaxCount P · · count) fuel h path

def adminSetBufferBackupPeriod (fuel : Nat) (h : Hub) (path : CString) (seconds : UInt32) :
    Except Fault Hub :=
  adminSet P (resSetBufferBackupPeriod P · · seconds) fuel h path

def adminSetJsonExtraction (fuel : Nat) (h : Hub) (path extractionSpec : CString) :
    Except Fault Hub :=
  adminSet P (resSetJsonExtraction · · extractionSpec) fuel h path

/-- `SetDefault` and `SetOverride` of the Admin service. -/
def adminSetValue (set : Hub → ResRef → DataType → DataSample → Except Fault Hub) (h : Hub)
    (path : CString) (value : Argument) : Except Fault Hub :=
  if isSettable P value then do
    let s ← createFromArgument h.env .zero value
    let (h, found) ← resTreeGetResource P h rootPtr path
    match found with
    | none => pure h
    | some e => do
      let r ← attachedTo h e
      set h r value.type s
  else pure h

/-- `admin_SetBooleanDefault`, `admin_SetNumericDefault` and their siblings. -/
def adminSetDefault (fuel : Nat) (h : Hub) (path : CString) (value : Argument) :
    Except Fault Hub :=
  adminSetValue P (resSetDefault P fuel) h path value

/-- `admin_SetBooleanOverride`, `admin_SetNumericOverride` and their siblings. -/
def adminSetOverride (fuel : Nat) (h : Hub) (path : CString) (value : Argument) :
    Except Fault Hub :=
  adminSetValue P (resSetOverride P fuel) h path value

/-- `admin_RemoveDefault` -/
def adminRemoveDefault (h : Hub) (path : CString) : Except Fault Hub := do
  let found ← resTreeFindEntryAtAbsolutePath P h path
  atResource h found (resRemoveDefault h)

/-- `admin_RemoveOverride` -/
def adminRemoveOverride (fuel : Nat) (h : Hub) (path : CString) : Except Fault Hub := do
  let found ← resTreeFindEntryAtAbsolutePath P h path
  atResource h found (resRemoveOverride P fuel h)

/-- `FindObservation` of the Query service. -/
def queryFindObservation (h : Hub) (path : CString) : Except Fault (Option EntryRef) := do
  let found ← lookup
  match found with
  | none => pure none
  | some e => do
    let entry ← h.getEntry e
    pure (if entry.type = .observation then some e else none)
where
  lookup : Except Fault (Option EntryRef) :=
    if (ascii "/obs/").isPrefixOf path then resTreeFindEntry P h rootPtr path
    else if path.head? = some 0x2f then pure none
    else do
      match ← resTreeFindEntry P h rootPtr (ascii "obs") with
      | none => pure none
      | some obsNamespace => resTreeFindEntry P h obsNamespace path

/-- `query_ReadBufferJson`. `nonBlocking` is the success of setting the descriptor to non-blocking
mode; `script` is what its calls of `write` return until it has to wait. -/
def queryReadBufferJson (h : Hub) (obsPath : CString) (startAfter : Double) (nonBlocking : Bool)
    (script : List WriteResult) : Except Fault Hub := do
  match ← queryFindObservation P h obsPath with
  | none => pure h
  | some e =>
    if startAfter.lt .zero then pure h
    else do
      let r ← attachedTo h e
      let id := h.nextRead
      let h := { h with nextRead := id + 1 }
      if nonBlocking then
        modifyObs h r fun ctx o => obsReadBufferJson P ctx o id startAfter script
      else pure (h.emit (.readRefused id))

/-- The queries on a sample buffer that read one sample or a statistic. -/
inductive BufferQuery
  | timestamp (startAfter : Double)
  | boolean (startAfter : Double)
  | numeric (startAfter : Double)
  | string (startAfter : Double) (valueSize : Nat)
  | json (startAfter : Double) (valueSize : Nat)
  | min (startTime : Double)
  | max (startTime : Double)
  | mean (startTime : Double)
  | stdDev (startTime : Double)

/-- `query_ReadBufferSampleTimestamp`, `query_ReadBufferSampleBoolean` and their siblings. -/
def readBufferSample (h : Hub) (x : Resource) (o : Observation) (startAfter : Double)
    (read : DataSample → Except Fault (Option Argument)) (dataType : Option DataType) :
    Except Fault (Option (Double × Option Argument)) :=
  if startAfter.lt .zero then pure none
  else if dataType.isSome ∧ dataType ≠ some x.currentType then pure none
  else match obsFindBufferedSampleAfter P h.env o startAfter with
    | none => pure none
    | some s => do
      let value ← read s
      pure (some (s.timestamp, value))

/-- The answer to a query: a timestamp (or statistic) and a value. -/
def answerQuery (h : Hub) (x : Resource) (o : Observation) :
    BufferQuery → Except Fault (Option (Double × Option Argument))
  | .timestamp startAfter => readBufferSample P h x o startAfter (fun _ => pure none) none
  | .boolean startAfter =>
    readBufferSample P h x o startAfter (fun s => do
      pure (some (.boolean (← dataSampleGetBoolean s)))) (some .boolean)
  | .numeric startAfter =>
    readBufferSample P h x o startAfter (fun s => do
      pure (some (.numeric (← dataSampleGetNumeric s)))) (some .numeric)
  | .string startAfter valueSize =>
    readBufferSample P h x o startAfter (fun s => do
      let text ← dataSampleConvertToString P s x.currentType valueSize
      pure (text.map .string)) none
  | .json startAfter valueSize =>
    readBufferSample P h x o startAfter (fun s => do
      let text ← dataSampleConvertToJson P s x.currentType valueSize
      pure (text.map .json)) none
  | .min startTime => do pure (some (← obsQueryMin P h.env o startTime, none))
  | .max startTime => do pure (some (← obsQueryMax P h.env o startTime, none))
  | .mean startTime => do pure (some (← obsQueryMean P h.env o startTime, none))
  | .stdDev startTime => do pure (some (← obsQueryStdDev P h.env o startTime, none))

/-- A buffer query at a path; `none` if there is no such Observation. -/
def queryBuffer (h : Hub) (obsPath : CString) (query : BufferQuery) :
    Except Fault (Option (Double × Option Argument)) := do
  match ← queryFindObservation P h obsPath with
  | none => pure none
  | some e => do
    let r ← attachedTo h e
    let x ← h.getResource r
    match x.cls with
    | .observation o => answerQuery P h x o query
    | _ => .error .badDowncast

/-- `BackupTimerExpired`. The timer of an Observation that has been freed still fires. -/
def backupTimerExpired (h : Hub) (r : ResRef) : Except Fault Hub :=
  match h.resources r with
  | some x =>
    match x.cls with
    | .observation o => if o.backupTimer then modifyObs h r (backup P) else pure h
    | _ => pure h
  | none => if r ∈ h.orphanTimers then .error .useAfterFree else pure h

/-- An event on the descriptor of a read operation. -/
def fdEvent (h : Hub) (r : ResRef) (id : Nat) (hangUp : Bool) (script : List WriteResult) :
    Except Fault Hub :=
  match h.resources r with
  | some x =>
    match x.cls with
    | .observation _ =>
      modifyObs h r fun ctx o => readOpFdEventHandler P ctx.currentType o id hangUp script
    | _ => pure h
  | none => pure h

/-- Everything that can happen to the hub: calls of its services and events of its environment. -/
inductive Op
  | ioCreateInput (session : Nat) (path : CString) (dataType : DataType) (units : CString)
  | ioCreateOutput (session : Nat) (path : CString) (dataType : DataType) (units : CString)
  | ioDeleteResource (session : Nat) (path : CString)
  | ioPush (session : Nat) (path : CString) (timestamp : Double) (value : Argument)
  | ioSetJsonExample (session : Nat) (path jsonExample : CString)
  | ioAddPushHandler (session : Nat) (path : CString) (dataType : DataType)
  | ioMarkOptional (session : Nat) (path : CString)
  | ioSetDefault (session : Nat) (path : CString) (value : Argument)
  | removePushHandler (p : HandlerRef)
  | adminPush (path : CString) (timestamp : Double) (value : Argument)
  | adminAddPushHandler (path : CString) (dataType : DataType)
  | adminSetSource (destPath srcPath : CString)
  | adminRemoveSource (destPath : CString)
  | adminCreateObs (path : CString)
  | adminDeleteObs (path : CString)
  | adminSetMinPeriod (path : CString) (minPeriod : Double)
  | adminSetHighLimit (path : CString) (highLimit : Double)
  | adminSetLowLimit (path : CString) (lowLimit : Double)
  | adminSetChangeBy (path : CString) (change : Double)
  | adminSetTransform (path : CString) (transformType : TransformType)
  | adminSetBufferMaxCount (path : CString) (count : UInt32)
  | adminSetBufferBackupPeriod (path : CString) (seconds : UInt32)
  | adminSetJsonExtraction (path extractionSpec : CString)
  | adminSetDefault (path : CString) (value : Argument)
  | adminRemoveDefault (path : CString)
  | adminSetOverride (path : CString) (value : Argument)
  | adminRemoveOverride (path : CString)
  | startUpdate
  | endUpdate
  | queryReadBufferJson (obsPath : CString) (startAfter : Double) (nonBlocking : Bool)
      (script : List WriteResult)
  | queryBuffer (obsPath : CString) (query : BufferQuery)
  | backupTimerExpired (r : ResRef)
  | fdEvent (r : ResRef) (id : Nat) (hangUp : Bool) (script : List WriteResult)
  | environment (env : Environment)

/-- One step of the hub. The fuel bounds the depth of the recursions along routes. -/
def step (fuel : Nat) (h : Hub) : Op → Except Fault Hub
  | .ioCreateInput session path dataType units =>
    Prod.fst <$> ioCreateInput P h session path dataType units
  | .ioCreateOutput session path dataType units =>
    Prod.fst <$> ioCreateOutput P h session path dataType units
  | .ioDeleteResource session path => ioDeleteResource P h session path
  | .ioPush session path timestamp value => ioPush P fuel h session path timestamp value
  | .ioSetJsonExample session path jsonExample =>
    ioSetJsonExample P fuel h session path jsonExample
  | .ioAddPushHandler session path dataType => ioAddPushHandler P h session path dataType
  | .ioMarkOptional session path => ioMarkOptional P h session path
  | .ioSetDefault session path value => ioSetDefault P fuel h session path value
  | .removePushHandler p => handlerRemove h p
  | .adminPush path timestamp value => adminPush P fuel h path timestamp value
  | .adminAddPushHandler path dataType => adminAddPushHandler P h path dataType
  | .adminSetSource destPath srcPath => Prod.fst <$> adminSetSource P fuel h destPath srcPath
  | .adminRemoveSource destPath => adminRemoveSource P fuel h destPath
  | .adminCreateObs path => Prod.fst <$> adminCreateObs P fuel h path
  | .adminDeleteObs path => adminDeleteObs P fuel h path
  | .adminSetMinPeriod path minPeriod => adminSetMinPeriod P fuel h path minPeriod
  | .adminSetHighLimit path highLimit => adminSetHighLimit P fuel h path highLimit
  | .adminSetLowLimit path lowLimit => adminSetLowLimit P fuel h path lowLimit
  | .adminSetChangeBy path change => adminSetChangeBy P fuel h path change
  | .adminSetTransform path transformType => adminSetTransform P fuel h path transformType
  | .adminSetBufferMaxCount path count => adminSetBufferMaxCount P fuel h path count
  | .adminSetBufferBackupPeriod path seconds => adminSetBufferBackupPeriod P fuel h path seconds
  | .adminSetJsonExtraction path extractionSpec =>
    adminSetJsonExtraction P fuel h path extractionSpec
  | .adminSetDefault path value => adminSetDefault P fuel h path value
  | .adminRemoveDefault path => adminRemoveDefault P h path
  | .adminSetOverride path value => adminSetOverride P fuel h path value
  | .adminRemoveOverride path => adminRemoveOverride P fuel h path
  | .startUpdate => pure (resStartUpdate h)
  | .endUpdate => resEndUpdate P h
  | .queryReadBufferJson obsPath startAfter nonBlocking script =>
    queryReadBufferJson P h obsPath startAfter nonBlocking script
  | .queryBuffer obsPath query => do
    let _ ← queryBuffer P h obsPath query
    pure h
  | .backupTimerExpired r => backupTimerExpired P h r
  | .fdEvent r id hangUp script => fdEvent P h r id hangUp script
  | .environment env => pure { h with env }

def run (fuel : Nat) (h : Hub) (ops : List Op) : Except Fault Hub := ops.foldlM (step P fuel) h

/-- The states that the hub can get into, from any files left by an earlier run. -/
inductive Reachable : Hub → Prop
  | boot (env : Environment) (files : List (CString × Bytes)) : Reachable (boot env files)
  | step {h h' : Hub} (fuel : Nat) (op : Op) (hr : Reachable h) (hs : step P fuel h op = .ok h') :
    Reachable h'

theorem reachable_run {h h' : Hub} {fuel : Nat} {ops : List Op} (hr : Reachable P h)
    (hs : run P fuel h ops = .ok h') : Reachable P h' := by
  have hall : Outcome.Returns (run P fuel h ops) (Reachable P) :=
    Outcome.Sat.foldlM hr fun _ op _ hr =>
      Outcome.Returns.of_ok fun _ hs => .step fuel op hr hs
  exact hall.result hs

end MangOH.DataHub
