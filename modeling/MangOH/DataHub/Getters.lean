import MangOH.DataHub.Service

/-! The operations of the Admin and Query services that read settings and values. -/
namespace MangOH.DataHub

variable (P : Platform)

/-- What a getter returns instead of `LE_OK`. -/
inductive GetError
  | notFound
  | overflow
  | unsupported
  | unavailable
  | formatError
deriving DecidableEq, Repr

abbrev GetResult (α : Type) := Except GetError α

/-- `le_utf8_Copy` into the caller's buffer of `size` bytes. -/
def copyOut (size : Nat) (text : CString) : GetResult CString :=
  if text.length < size then .ok text else .error .overflow

/-! ### Observations, by the Admin service -/

/-- The getters for Observations find one and read a field of it. -/
def getFromObservation {α : Type} (found : Except Fault (Hub × Option EntryRef)) (unset : α)
    (get : Observation → α) : Except Fault (Hub × α) := do
  let (h, obs) ← found
  match obs with
  | none => pure (h, unset)
  | some e => do
    let r ← attachedTo h e
    let x ← h.getResource r
    match x.cls with
    | .observation o => pure (h, get o)
    | _ => .error .badDowncast

def adminGetMinPeriod (h : Hub) (path : CString) : Except Fault (Hub × Double) :=
  getFromObservation (adminFindObservation P h path) .zero (·.minPeriod)

def adminGetHighLimit (h : Hub) (path : CString) : Except Fault (Hub × Double) :=
  getFromObservation (adminFindObservation P h path) .nan (·.highLimit)

def adminGetLowLimit (h : Hub) (path : CString) : Except Fault (Hub × Double) :=
  getFromObservation (adminFindObservation P h path) .nan (·.lowLimit)

def adminGetChangeBy (h : Hub) (path : CString) : Except Fault (Hub × Double) :=
  getFromObservation (adminFindObservation P h path) .zero (·.changeBy)

/-- `admin_GetTransform` gets the Observation like a setter. -/
def adminGetTransform (fuel : Nat) (h : Hub) (path : CString) :
    Except Fault (Hub × TransformType) :=
  getFromObservation (adminGetObservation P fuel h path) .none (·.transformType)

def adminGetJsonExtraction (h : Hub) (path : CString) (size : Nat) :
    Except Fault (Hub × GetResult CString) :=
  getFromObservation (adminFindObservation P h path) (.error .notFound) fun o =>
    if o.jsonExtraction = [] then .error .notFound else copyOut size o.jsonExtraction

def adminGetBufferMaxCount (h : Hub) (path : CString) : Except Fault (Hub × Nat) :=
  getFromObservation (adminFindObservation P h path) 0 (·.maxCount)

def adminGetBufferBackupPeriod (h : Hub) (path : CString) : Except Fault (Hub × Nat) :=
  getFromObservation (adminFindObservation P h path) 0 (·.backupPeriod)

/-! ### Entries and resources, by the Admin service -/

/-- The path of an entry, into a buffer of `size` bytes. -/
def pathOut (h : Hub) (size : Nat) (e : EntryRef) : Except Fault (GetResult CString) := do
  let path ← getAbsolutePath P h size (e + 1) e
  pure (if path.2 then .ok path.1 else .error .overflow)

def pathOfEntry (h : Hub) (size : Nat) : Option EntryRef → Except Fault (GetResult CString)
  | none => pure (.error .notFound)
  | some e => pathOut P h size e

/-- The getters for entries find one at an absolute path and read it. -/
def atEntry {α : Type} (h : Hub) (path : CString) (none' : α)
    (read : Entry → Except Fault α) : Except Fault α := do
  match ← resTreeFindEntryAtAbsolutePath P h path with
  | none => pure none'
  | some e => do
    let entry ← h.getEntry e
    read entry

/-- Those for resources do the same if the entry has one. -/
def adminRead {α : Type} (h : Hub) (path : CString) (none' : α)
    (read : Resource → Except Fault α) : Except Fault α :=
  atEntry P h path none' fun entry =>
    match entry.resourcePtr with
    | none => pure none'
    | some r => do
      let x ← h.getResource r
      read x

def adminGetEntryType (h : Hub) (path : CString) : Except Fault (Option EntryType) :=
  atEntry P h path none fun entry => pure (some entry.type)

def adminGetFirstChild (h : Hub) (path : CString) (childSize : Nat) :
    Except Fault (GetResult CString) :=
  atEntry P h path (.error .notFound) fun entry => pathOfEntry P h childSize entry.childList.head?

/-- `resTree_GetNextSibling` of an entry with this parent. -/
def nextSibling (h : Hub) (e : EntryRef) : Option EntryRef → Except Fault (Option EntryRef)
  | none => pure none
  | some parent => do
    let p ← h.getEntry parent
    pure (p.childList.dropWhile (· ≠ e)).tail.head?

def adminGetNextSibling (h : Hub) (path : CString) (siblingSize : Nat) :
    Except Fault (GetResult CString) := do
  match ← resTreeFindEntryAtAbsolutePath P h path with
  | none => pure (.error .notFound)
  | some e => do
    let entry ← h.getEntry e
    let sibling ← nextSibling h e entry.parentPtr
    pathOfEntry P h siblingSize sibling

def adminGetSource (h : Hub) (destPath : CString) (srcPathSize : Nat) :
    Except Fault (GetResult CString) :=
  adminRead P h destPath (.error .notFound) fun x =>
    match x.srcPtr with
    | none => pure (.error .notFound)
    | some src => do
      let source ← h.getResource src
      pathOut P h srcPathSize source.entryRef

/-- `ioPoint_IsMandatory` -/
def ioPointIsMandatory (x : Resource) : Except Fault Bool :=
  match x.cls with
  | .ioPoint _ isMandatory => pure isMandatory
  | _ => .error .badDowncast

def adminIsMandatory (h : Hub) (path : CString) : Except Fault Bool :=
  atEntry P h path false fun entry =>
    if entry.type ≠ .output then pure false
    else match entry.resourcePtr with
      | none => .error .nullDeref
      | some r => do
        let x ← h.getResource r
        ioPointIsMandatory x

def adminGetUnits (h : Hub) (path : CString) (unitsBuffSize : Nat) :
    Except Fault (GetResult CString) :=
  adminRead P h path (.error .notFound) fun x => pure (copyOut unitsBuffSize x.units)

def adminGetDataType (h : Hub) (path : CString) : Except Fault (GetResult DataType) :=
  adminRead P h path (.error .notFound) fun x => pure (.ok x.currentType)

/-! ### Default and override values -/

section Values

/-- One of the two values that the administrator can give a resource, and its type. -/
structure AdminValue where
  value : Resource → Option DataSample
  type : Resource → DataType

def AdminValue.ofDefault : AdminValue := ⟨Resource.defaultValue, Resource.defaultType⟩

def AdminValue.ofOverride : AdminValue := ⟨Resource.overrideValue, Resource.overrideType⟩

/-- The value, if it is set and of this type. -/
def AdminValue.ofType (v : AdminValue) (dataType : DataType) (x : Resource) : Option DataSample :=
  (v.value x).filter fun _ => decide (v.type x = dataType)

/-- `dataSample_ConvertToJson` into the caller's buffer. -/
def jsonOut (s : DataSample) (dataType : DataType) (size : Nat) :
    Except Fault (GetResult CString) := do
  let text ← dataSampleConvertToJson P s dataType size
  pure (match text with
    | some text => .ok text
    | none => .error .overflow)

variable (v : AdminValue)

def adminHasValue (h : Hub) (path : CString) : Except Fault Bool :=
  adminRead P h path false fun x => pure (v.value x).isSome

def adminGetValueDataType (h : Hub) (path : CString) : Except Fault DataType :=
  adminRead P h path .trigger fun x => pure (if (v.value x).isNone then .trigger else v.type x)

def adminGetBoolean (h : Hub) (path : CString) : Except Fault Bool :=
  adminRead P h path false fun x =>
    match v.ofType .boolean x with
    | none => pure false
    | some s => dataSampleGetBoolean s

def adminGetNumeric (h : Hub) (path : CString) : Except Fault Double :=
  adminRead P h path .nan fun x =>
    match v.ofType .numeric x with
    | none => pure .nan
    | some s => dataSampleGetNumeric s

def adminGetString (h : Hub) (path : CString) (valueSize : Nat) :
    Except Fault (GetResult CString) :=
  adminRead P h path (.error .notFound) fun x =>
    match v.ofType .string x with
    | none => pure (.error .notFound)
    | some s => do
      let text ← dataSampleGetString s
      pure (copyOut valueSize text)

def adminGetJson (h : Hub) (path : CString) (valueSize : Nat) : Except Fault (GetResult CString) :=
  adminRead P h path (.error .notFound) fun x =>
    match v.value x with
    | none => pure (.error .notFound)
    | some s => jsonOut P s (v.type x) valueSize

end Values

def adminHasDefault (h : Hub) (path : CString) : Except Fault Bool :=
  adminHasValue P .ofDefault h path

def adminGetDefaultDataType (h : Hub) (path : CString) : Except Fault DataType :=
  adminGetValueDataType P .ofDefault h path

def adminGetBooleanDefault (h : Hub) (path : CString) : Except Fault Bool :=
  adminGetBoolean P .ofDefault h path

def adminGetNumericDefault (h : Hub) (path : CString) : Except Fault Double :=
  adminGetNumeric P .ofDefault h path

def adminGetStringDefault (h : Hub) (path : CString) (valueSize : Nat) :
    Except Fault (GetResult CString) :=
  adminGetString P .ofDefault h path valueSize

def adminGetJsonDefault (h : Hub) (path : CString) (valueSize : Nat) :
    Except Fault (GetResult CString) :=
  adminGetJson P .ofDefault h path valueSize

def adminHasOverride (h : Hub) (path : CString) : Except Fault Bool :=
  adminHasValue P .ofOverride h path

def adminGetOverrideDataType (h : Hub) (path : CString) : Except Fault DataType :=
  adminGetValueDataType P .ofOverride h path

def adminGetBooleanOverride (h : Hub) (path : CString) : Except Fault Bool :=
  adminGetBoolean P .ofOverride h path

def adminGetNumericOverride (h : Hub) (path : CString) : Except Fault Double :=
  adminGetNumeric P .ofOverride h path

def adminGetStringOverride (h : Hub) (path : CString) (valueSize : Nat) :
    Except Fault (GetResult CString) :=
  adminGetString P .ofOverride h path valueSize

def adminGetJsonOverride (h : Hub) (path : CString) (valueSize : Nat) :
    Except Fault (GetResult CString) :=
  adminGetJson P .ofOverride h path valueSize

/-! ### Resources, by the Query service -/

/-- `FindResource` of the Query service. A relative path is looked up in the namespace of the
client. -/
def queryFindResource (h : Hub) (session : Nat) (path : CString) :
    Except Fault (Hub × Option EntryRef) :=
  if path.head? = some 0x2f then do
    let found ← resTreeFindEntryAtAbsolutePath P h path
    pure (h, found)
  else do
    let (h, ns) ← hubGetClientNamespace P h session
    match ns with
    | none => pure (h, none)
    | some ns => do
      match ← resTreeFindEntry P h ns path with
      | none => pure (h, none)
      | some e => do
        let entry ← h.getEntry e
        pure (h, if entry.resourcePtr.isSome then some e else none)

/-- The getters of the Query service for resources. -/
def queryRead {α : Type} (h : Hub) (session : Nat) (path : CString)
    (read : Resource → Except Fault (GetResult α)) : Except Fault (Hub × GetResult α) := do
  let (h, found) ← queryFindResource P h session path
  match found with
  | none => pure (h, .error .notFound)
  | some e => do
    let entry ← h.getEntry e
    match entry.resourcePtr with
    | none => pure (h, .error .unsupported)
    | some r => do
      let x ← h.getResource r
      let result ← read x
      pure (h, result)

def queryGetDataType (h : Hub) (session : Nat) (path : CString) :
    Except Fault (Hub × GetResult DataType) :=
  queryRead P h session path fun x => pure (.ok x.currentType)

def queryGetUnits (h : Hub) (session : Nat) (path : CString) (unitsSize : Nat) :
    Except Fault (Hub × GetResult CString) :=
  queryRead P h session path fun x => pure (copyOut unitsSize x.units)

/-- The getters of the Query service for current values: one of another type is refused, if the
getter is for one type only. -/
def queryReadValue {α : Type} (h : Hub) (session : Nat) (path : CString)
    (dataType : Option DataType) (get : DataSample → DataType → Except Fault (GetResult α)) :
    Except Fault (Hub × GetResult (Double × α)) :=
  queryRead P h session path fun x =>
    match x.currentValue with
    | none => pure (.error .unavailable)
    | some s =>
      if dataType.isSome ∧ dataType ≠ some x.currentType then pure (.error .formatError)
      else do
        let value ← get s x.currentType
        pure (value.map fun a => (dataSampleGetTimestamp s, a))

def queryGetTimestamp (h : Hub) (session : Nat) (path : CString) :
    Except Fault (Hub × GetResult (Double × Unit)) :=
  queryReadValue P h session path none fun _ _ => pure (.ok ())

def queryGetBoolean (h : Hub) (session : Nat) (path : CString) :
    Except Fault (Hub × GetResult (Double × Bool)) :=
  queryReadValue P h session path (some .boolean) fun s _ => do
    let value ← dataSampleGetBoolean s
    pure (.ok value)

def queryGetNumeric (h : Hub) (session : Nat) (path : CString) :
    Except Fault (Hub × GetResult (Double × Double)) :=
  queryReadValue P h session path (some .numeric) fun s _ => do
    let value ← dataSampleGetNumeric s
    pure (.ok value)

def queryGetString (h : Hub) (session : Nat) (path : CString) (valueSize : Nat) :
    Except Fault (Hub × GetResult (Double × CString)) :=
  queryReadValue P h session path (some .string) fun s _ => do
    let value ← dataSampleGetString s
    pure (copyOut valueSize value)

def queryGetJson (h : Hub) (session : Nat) (path : CString) (valueSize : Nat) :
    Except Fault (Hub × GetResult (Double × CString)) :=
  queryReadValue P h session path none fun s dataType =>
    if dataType = .json then do
      let value ← dataSampleGetJson s
      pure (copyOut valueSize value)
    else jsonOut P s dataType valueSize

def queryGetJsonExample (h : Hub) (session : Nat) (path : CString) (exampleSize : Nat) :
    Except Fault (Hub × GetResult CString) :=
  queryRead P h session path fun x =>
    if x.currentType ≠ .json then pure (.error .unsupported)
    else match x.jsonExample with
      | none => pure (.error .unavailable)
      | some s => do
        let value ← dataSampleGetJson s
        pure (copyOut exampleSize value)

/-- The operations that only read. -/
inductive Getter
  | adminGetMinPeriod (path : CString)
  | adminGetHighLimit (path : CString)
  | adminGetLowLimit (path : CString)
  | adminGetChangeBy (path : CString)
  | adminGetTransform (path : CString)
  | adminGetJsonExtraction (path : CString) (size : Nat)
  | adminGetBufferMaxCount (path : CString)
  | adminGetBufferBackupPeriod (path : CString)
  | adminGetEntryType (path : CString)
  | adminGetFirstChild (path : CString) (childSize : Nat)
  | adminGetNextSibling (path : CString) (siblingSize : Nat)
  | adminGetSource (destPath : CString) (srcPathSize : Nat)
  | adminIsMandatory (path : CString)
  | adminGetUnits (path : CString) (unitsBuffSize : Nat)
  | adminGetDataType (path : CString)
  | adminHasDefault (path : CString)
  | adminGetDefaultDataType (path : CString)
  | adminGetBooleanDefault (path : CString)
  | adminGetNumericDefault (path : CString)
  | adminGetStringDefault (path : CString) (valueSize : Nat)
  | adminGetJsonDefault (path : CString) (valueSize : Nat)
  | adminHasOverride (path : CString)
  | adminGetOverrideDataType (path : CString)
  | adminGetBooleanOverride (path : CString)
  | adminGetNumericOverride (path : CString)
  | adminGetStringOverride (path : CString) (valueSize : Nat)
  | adminGetJsonOverride (path : CString) (valueSize : Nat)
  | queryBuffer (obsPath : CString) (query : BufferQuery)
  | queryGetDataType (session : Nat) (path : CString)
  | queryGetUnits (session : Nat) (path : CString) (unitsSize : Nat)
  | queryGetTimestamp (session : Nat) (path : CString)
  | queryGetBoolean (session : Nat) (path : CString)
  | queryGetNumeric (session : Nat) (path : CString)
  | queryGetString (session : Nat) (path : CString) (valueSize : Nat)
  | queryGetJson (session : Nat) (path : CString) (valueSize : Nat)
  | queryGetJsonExample (session : Nat) (path : CString) (exampleSize : Nat)

/-- The hub after a getter has returned its answer. -/
def getterStep (fuel : Nat) (h : Hub) : Getter → Except Fault Hub
  | .adminGetMinPeriod path => Prod.fst <$> adminGetMinPeriod P h path
  | .adminGetHighLimit path => Prod.fst <$> adminGetHighLimit P h path
  | .adminGetLowLimit path => Prod.fst <$> adminGetLowLimit P h path
  | .adminGetChangeBy path => Prod.fst <$> adminGetChangeBy P h path
  | .adminGetTransform path => Prod.fst <$> adminGetTransform P fuel h path
  | .adminGetJsonExtraction path size => Prod.fst <$> adminGetJsonExtraction P h path size
  | .adminGetBufferMaxCount path => Prod.fst <$> adminGetBufferMaxCount P h path
  | .adminGetBufferBackupPeriod path => Prod.fst <$> adminGetBufferBackupPeriod P h path
  | .adminGetEntryType path => (fun _ => h) <$> adminGetEntryType P h path
  | .adminGetFirstChild path size => (fun _ => h) <$> adminGetFirstChild P h path size
  | .adminGetNextSibling path size => (fun _ => h) <$> adminGetNextSibling P h path size
  | .adminGetSource path size => (fun _ => h) <$> adminGetSource P h path size
  | .adminIsMandatory path => (fun _ => h) <$> adminIsMandatory P h path
  | .adminGetUnits path size => (fun _ => h) <$> adminGetUnits P h path size
  | .adminGetDataType path => (fun _ => h) <$> adminGetDataType P h path
  | .adminHasDefault path => (fun _ => h) <$> adminHasDefault P h path
  | .adminGetDefaultDataType path => (fun _ => h) <$> adminGetDefaultDataType P h path
  | .adminGetBooleanDefault path => (fun _ => h) <$> adminGetBooleanDefault P h path
  | .adminGetNumericDefault path => (fun _ => h) <$> adminGetNumericDefault P h path
  | .adminGetStringDefault path size => (fun _ => h) <$> adminGetStringDefault P h path size
  | .adminGetJsonDefault path size => (fun _ => h) <$> adminGetJsonDefault P h path size
  | .adminHasOverride path => (fun _ => h) <$> adminHasOverride P h path
  | .adminGetOverrideDataType path => (fun _ => h) <$> adminGetOverrideDataType P h path
  | .adminGetBooleanOverride path => (fun _ => h) <$> adminGetBooleanOverride P h path
  | .adminGetNumericOverride path => (fun _ => h) <$> adminGetNumericOverride P h path
  | .adminGetStringOverride path size => (fun _ => h) <$> adminGetStringOverride P h path size
  | .adminGetJsonOverride path size => (fun _ => h) <$> adminGetJsonOverride P h path size
  | .queryBuffer path query => (fun _ => h) <$> queryBuffer P h path query
  | .queryGetDataType session path => Prod.fst <$> queryGetDataType P h session path
  | .queryGetUnits session path size => Prod.fst <$> queryGetUnits P h session path size
  | .queryGetTimestamp session path => Prod.fst <$> queryGetTimestamp P h session path
  | .queryGetBoolean session path => Prod.fst <$> queryGetBoolean P h session path
  | .queryGetNumeric session path => Prod.fst <$> queryGetNumeric P h session path
  | .queryGetString session path size => Prod.fst <$> queryGetString P h session path size
  | .queryGetJson session path size => Prod.fst <$> queryGetJson P h session path size
  | .queryGetJsonExample session path size =>
    Prod.fst <$> queryGetJsonExample P h session path size

end MangOH.DataHub
