import MangOH.DataHub.ReadOp

/-! The state of the hub: entries of the resource tree, resources, handlers and files. -/
namespace MangOH.DataHub

abbrev EntryRef := Nat
abbrev ResRef := Nat
abbrev HandlerRef := Nat

/-- The sub-class that a resource belongs to: `IoResource_t`, `Observation_t` or neither. -/
inductive ResourceClass
  | placeholder
  | ioPoint (dataType : DataType) (isMandatory : Bool)
  | observation (obs : Observation)

/-- `res_Resource_t` together with the fields of its sub-class. -/
structure Resource where
  entryRef : EntryRef
  units : CString
  currentValue : Option DataSample
  currentType : DataType
  pushedValue : Option DataSample
  pushedType : DataType
  srcPtr : Option ResRef
  destList : List ResRef
  overrideValue : Option DataSample
  overrideType : DataType
  defaultValue : Option DataSample
  defaultType : DataType
  isConfigChanging : Bool
  pushHandlerList : List HandlerRef
  jsonExample : Option DataSample
  cls : ResourceClass

/-- `Entry_t`, with the reference count of its memory block. -/
structure Entry where
  parentPtr : Option EntryRef
  name : CString
  childList : List EntryRef
  type : EntryType
  resourcePtr : Option ResRef
  refCount : Nat

/-- `Handler_t`; `listPtr` is the list of the resource the handler was added to. -/
structure Handler where
  dataType : DataType
  listPtr : ResRef

/-- The settings of a resource that an update can change. -/
inductive Setting
  /-- a route to or from the resource is added -/
  | route
  /-- the resource loses its source and gets no other one -/
  | noSource
  | filter
  | transform
  | jsonExtraction
deriving DecidableEq, Repr

/-- `admin_ResourceOperationType_t` -/
inductive ResourceOperation
  | added | removed
deriving DecidableEq, Repr

/-- What the hub does besides changing its state. Constructors ending in -ing record the arguments
and the state with which a function is entered; they are never read. -/
inductive Event
  /-- `res_Push` is called -/
  | pushing (r : ResRef) (ctx : ObsContext) (before : Resource) (dataType : DataType)
      (units : CString) (sample : DataSample)
  /-- `res_Push` is called on the resource of an entry of this type -/
  | receiving (r : ResRef) (entryType : EntryType) (sample : DataSample)
  /-- `UpdateCurrentValue` accepts a sample for a resource on which these handlers are registered -/
  | accepting (r : ResRef) (entryType : EntryType) (handlers : List HandlerRef)
      (sample : DataSample)
  /-- `UpdateCurrentValue` calls the handlers of a resource with the sample that it has accepted -/
  | notifying (r : ResRef) (handlers : List (HandlerRef × DataType)) (sample : DataSample)
  /-- an app registers a handler on one of its resources -/
  | registering (r : ResRef) (handler : HandlerRef)
  /-- a backup file is read into a new Observation -/
  | restoring (r : ResRef) (env : Environment) (content : Bytes)
  /-- `res_SetSource` is called with a source -/
  | routing (dest src : ResRef)
  /-- a resource is about to be attached to an entry that has none -/
  | attaching (e : EntryRef) (entry : Entry) (new : ResRef) (replacementType : EntryType)
      (replacement : Resource)
  /-- a resource is about to be replaced by one of another type -/
  | replacing (old new : ResRef) (before : Resource) (replacementType : EntryType)
      (replacement : Resource)
  /-- `res_RemoveOverride` is called -/
  | unoverriding (entryType : EntryType) (before : Resource)
  /-- a setting of a resource has changed, within an update or not -/
  | configured (r : ResRef) (setting : Setting) (updating : Bool)
  /-- `res_EndUpdate` is called -/
  | endingUpdate
  /-- the handlers for changes of the resource tree are called -/
  | treeChange (path : CString) (entryType : EntryType) (operation : ResourceOperation)
  /-- `StartRead` fails: the completion handler of the read is called with `LE_COMM_ERROR` -/
  | readRefused (id : Nat)
  | obs (r : ResRef) (e : ObsEvent)
  | called (handler : HandlerRef) (timestamp : Double) (value : Argument)

structure Hub where
  entries : EntryRef → Option Entry
  resources : ResRef → Option Resource
  handlers : HandlerRef → Option Handler
  nextEntry : EntryRef
  nextRes : ResRef
  nextHandler : HandlerRef
  nextRead : Nat
  /-- `IsUpdateInProgress` -/
  isUpdateInProgress : Bool
  /-- the namespace saved as the context pointer of an IPC session -/
  sessions : Nat → Option EntryRef
  files : List (CString × Bytes)
  /-- running backup timers whose Observation has been freed -/
  orphanTimers : List ResRef
  env : Environment
  log : List Event

namespace Hub

variable (h : Hub)

def getEntry (e : EntryRef) : Except Fault Entry :=
  match h.entries e with
  | some entry => .ok entry
  | none => .error .useAfterFree

def getResource (r : ResRef) : Except Fault Resource :=
  match h.resources r with
  | some x => .ok x
  | none => .error .useAfterFree

def setEntry (e : EntryRef) (entry : Entry) : Hub :=
  { h with entries := Function.update h.entries e (some entry) }

def freeEntry (e : EntryRef) : Hub := { h with entries := Function.update h.entries e none }

def setResource (r : ResRef) (x : Resource) : Hub :=
  { h with resources := Function.update h.resources r (some x) }

def freeResource (r : ResRef) : Hub :=
  { h with resources := Function.update h.resources r none }

def modifyResource (r : ResRef) (f : Resource → Resource) : Except Fault Hub := do
  let x ← h.getResource r
  pure (h.setResource r (f x))

def modifyEntry (e : EntryRef) (f : Entry → Entry) : Except Fault Hub := do
  let entry ← h.getEntry e
  pure (h.setEntry e (f entry))

def setHandler (p : HandlerRef) (handler : Option Handler) : Hub :=
  { h with handlers := Function.update h.handlers p handler }

/-- Handlers with the types of data that they are for. -/
def registered (list : List HandlerRef) : List (HandlerRef × DataType) :=
  list.filterMap fun p => (h.handlers p).map fun handler => (p, handler.dataType)

def emit (e : Event) : Hub := { h with log := h.log ++ [e] }

/-- The effect of an event on the file system. -/
def applyFileEvent (files : List (CString × Bytes)) : ObsEvent → List (CString × Bytes)
  | .committed path content => (path, content) :: files.filter fun f => f.1 ≠ path
  | .unlinked path => files.filter fun f => f.1 ≠ path
  | _ => files

def configured (r : ResRef) (setting : Setting) : Hub :=
  h.emit (.configured r setting h.isUpdateInProgress)

/-- Record what an Observation has done, and do it to the files. -/
def emitObs (r : ResRef) (evs : List ObsEvent) : Hub :=
  { h with log := h.log ++ evs.map (Event.obs r), files := evs.foldl applyFileEvent h.files }

def file (path : CString) : Option Bytes := (h.files.find? (·.1 = path)).map (·.2)

/-- `resTree_GetEntryType` of the entry that a resource is attached to. -/
def entryType (x : Resource) : Except Fault EntryType := do
  let entry ← h.getEntry x.entryRef
  pure entry.type

end Hub

/-- The root namespace. -/
def rootPtr : EntryRef := 0

/-- The hub after `resTree_Init`. -/
def boot (env : Environment) (files : List (CString × Bytes)) : Hub where
  entries := fun e => if e = rootPtr then
    some { parentPtr := none, name := [], childList := [], type := .nameSpace,
           resourcePtr := none, refCount := 1 }
    else none
  resources := fun _ => none
  handlers := fun _ => none
  nextEntry := 1
  nextRes := 0
  nextHandler := 0
  nextRead := 0
  isUpdateInProgress := false
  sessions := fun _ => none
  files
  orphanTimers := []
  env
  log := []

/-- `resTree_FindChild` -/
def resTreeFindChild (h : Hub) (nsRef : EntryRef) (name : CString) :
    Except Fault (Option EntryRef) := do
  let ns ← h.getEntry nsRef
  search ns.childList
where
  search : List EntryRef → Except Fault (Option EntryRef)
    | [] => pure none
    | c :: rest => do
      let child ← h.getEntry c
      if child.name = name then pure (some c) else search rest

/-- `resTree_GetPath`, in a buffer that is large enough: `none` if the entry is not under the base
namespace. -/
def resTreeGetPath (h : Hub) (baseNamespace : EntryRef) (e : EntryRef) :
    Except Fault (Option CString) :=
  -- every entry is younger than its parent, so its number bounds the depth of the recursion
  go (e + 1) e
where
  go : Nat → EntryRef → Except Fault (Option CString)
    | 0, _ => .error .outOfFuel
    | fuel + 1, e =>
      if e = baseNamespace then pure (some [])
      else do
        let entry ← h.getEntry e
        match entry.parentPtr with
        | none => pure none
        | some parent =>
          if parent = baseNamespace then
            pure (some ((if baseNamespace = rootPtr then ascii "/" else []) ++ entry.name))
          else do
            let above ← go fuel parent
            pure (above.map fun path => path ++ ascii "/" ++ entry.name)

/-- The path of an entry relative to the `/obs` namespace, as `GetBackupFilePath` looks it up. The
entries on the way to an Observation are never gone before it. -/
def obsPathOf (h : Hub) (e : EntryRef) : Option CString :=
  match lookup with
  | .ok path => path
  | .error _ => none
where
  lookup : Except Fault (Option CString) := do
    match ← resTreeFindChild h rootPtr (ascii "obs") with
    | none => .error .fatal
    | some obsNamespace => resTreeGetPath h obsNamespace e

end MangOH.DataHub
