import MangOH.DataHub.Settings

/-! The resource tree: finding, creating and deleting entries and the resources attached to them. -/
namespace MangOH.DataHub

variable (P : Platform)

/-- `HUB_MAX_ENTRY_NAME_BYTES` -/
def hubMaxEntryNameBytes : Nat := P.leLimitAppNameLen + 1

/-- `AddChild` -/
def addChild (h : Hub) (parent : EntryRef) (name : CString) : Except Fault (Hub × EntryRef) := do
  let e := h.nextEntry
  let h ← h.modifyEntry parent fun p =>
    { p with refCount := p.refCount + 1, childList := p.childList ++ [e] }
  let entry : Entry :=
    { parentPtr := some parent, name := leUtf8Copy P (hubMaxEntryNameBytes P) name, childList := [],
      type := .nameSpace, resourcePtr := none, refCount := 1 }
  pure ({ h.setEntry e entry with nextEntry := e + 1 }, e)

/-- `le_mem_Release` of an entry, with `EntryDestructor` when the last reference goes. -/
def releaseEntry : Nat → Hub → EntryRef → Except Fault Hub
  | 0, _, _ => .error .outOfFuel
  | fuel + 1, h, e => do
    let entry ← h.getEntry e
    if 1 < entry.refCount then pure (h.setEntry e { entry with refCount := entry.refCount - 1 })
    else
      match entry.parentPtr with
      | none => .error .entryAssertion
      | some parent =>
        if entry.childList ≠ [] ∨ entry.resourcePtr.isSome then .error .entryAssertion
        else do
          let h ← h.modifyEntry parent fun p => { p with childList := p.childList.erase e }
          releaseEntry fuel (h.freeEntry e) parent

def isIllegal (c : UInt8) : Bool := (ascii ".[]").contains c

/-- The elements of a path, split at every slash. -/
def splitPath : CString → List CString
  | [] => [[]]
  | c :: rest =>
    if c = 0x2f then [] :: splitPath rest
    else match splitPath rest with
      | name :: names => (c :: name) :: names
      | [] => [[c]]

/-- The names that `GoToEntry` finds in a path: one leading slash is skipped. -/
def pathElements : CString → List CString
  | [] => []
  | c :: rest => splitPath (if c = 0x2f then rest else c :: rest)

/-- The loop of `GoToEntry`. Entries created before a malformed element stay. -/
def walk (doCreate : Bool) :
    List CString → Hub → EntryRef → Except Fault (Hub × Option EntryRef)
  | [], h, currentEntry => pure (h, some currentEntry)
  | name :: names, h, currentEntry =>
    if name = [] ∨ hubMaxEntryNameBytes P ≤ name.length then pure (h, none)
    else do
      match ← resTreeFindChild h currentEntry name with
      | some child => walk doCreate names h child
      | none =>
        if doCreate then do
          let (h, child) ← addChild P h currentEntry name
          walk doCreate names h child
        else pure (h, none)

/-- `GoToEntry` -/
def goToEntry (h : Hub) (baseNamespace : EntryRef) (path : CString) (doCreate : Bool) :
    Except Fault (Hub × Option EntryRef) :=
  if path.any isIllegal then pure (h, none)
  else walk P doCreate (pathElements path) h baseNamespace

/-- `resTree_FindEntry` -/
def resTreeFindEntry (h : Hub) (baseNamespace : EntryRef) (path : CString) :
    Except Fault (Option EntryRef) := do
  let found ← goToEntry P h baseNamespace path false
  pure found.2

/-- `resTree_FindEntryAtAbsolutePath` -/
def resTreeFindEntryAtAbsolutePath (h : Hub) (path : CString) : Except Fault (Option EntryRef) :=
  match path with
  | 0x2f :: path => resTreeFindEntry P h rootPtr path
  | _ => pure none

/-- `resTree_GetEntry` -/
def resTreeGetEntry (h : Hub) (baseNamespace : EntryRef) (path : CString) :
    Except Fault (Hub × Option EntryRef) :=
  goToEntry P h baseNamespace path true

/-- `ReplaceResource`, with a resource that has just been created. -/
def replaceResource (h : Hub) (e : EntryRef) (replacement : Resource)
    (replacementType : EntryType) : Except Fault (Hub × ResRef) := do
  let entry ← h.getEntry e
  let r := h.nextRes
  let h := { h.setResource r replacement with nextRes := r + 1 }
  let h ← dispose h entry r
  let h ← h.modifyEntry e fun entry =>
    { entry with resourcePtr := some r, type := replacementType }
  pure (h, r)
where
  /-- Move the settings of the resource that the entry has had so far, and delete it. -/
  dispose (h : Hub) (entry : Entry) (r : ResRef) : Except Fault Hub :=
    match entry.resourcePtr with
    | none => pure (h.emit (.attaching e entry r replacementType replacement))
    | some old => do
      let x ← h.getResource old
      let h := h.emit (.replacing old r x replacementType replacement)
      let h ← resMoveAdminSettings P h old r replacementType
      releaseResource P h old

/-- Append a text to what is in a buffer of `size` bytes; the second part tells whether it fits. -/
def appendText (size : Nat) (text more : CString) : CString × Bool :=
  (text ++ leUtf8Copy P (size - text.length) more, decide (more.length < size - text.length))

/-- `resTree_GetPath` from the root, into a buffer of `size` bytes: what is in the buffer
afterwards, and whether that is the whole path. The root itself has none. -/
def getAbsolutePath (h : Hub) (size : Nat) : Nat → EntryRef → Except Fault (CString × Bool)
  | 0, _ => .error .outOfFuel
  | fuel + 1, e =>
    if e = rootPtr then pure ([], true)
    else do
      let entry ← h.getEntry e
      match entry.parentPtr with
      | none => .error .nullDeref
      | some parent => do
        let above ← getAbsolutePath h size fuel parent
        if !above.2 then pure above
        else
          let slash := appendText P size above.1 (ascii "/")
          pure (if slash.2 then appendText P size slash.1 entry.name else slash)

/-- `CallResourceTreeChangeHandlers`. The path is passed on even if it does not fit. -/
def callResourceTreeChangeHandlers (h : Hub) (e : EntryRef) (entryType : EntryType)
    (operation : ResourceOperation) : Except Fault Hub := do
  let path ← getAbsolutePath P h (ioMaxResourcePathLen + 1) (e + 1) e
  pure (h.emit (.treeChange path.1 entryType operation))

/-- `resTree_GetResource` -/
def resTreeGetResource (h : Hub) (baseNamespace : EntryRef) (path : CString) :
    Except Fault (Hub × Option EntryRef) := do
  let (h, found) ← goToEntry P h baseNamespace path true
  match found with
  | none => pure (h, none)
  | some e => do
    let entry ← h.getEntry e
    if entry.type = .nameSpace then do
      let (h, _) ← replaceResource P h e (resCreatePlaceholder e) .placeholder
      pure (h, some e)
    else pure (h, some e)

/-- `resTree_GetInput` and `resTree_GetOutput`: they replace only a Namespace or a Placeholder. -/
def getIo (create : EntryRef → Resource) (type : EntryType) (h : Hub)
    (baseNamespace : EntryRef) (path : CString) : Except Fault (Hub × Option EntryRef) := do
  let (h, found) ← goToEntry P h baseNamespace path true
  match found with
  | none => pure (h, none)
  | some e => do
    let entry ← h.getEntry e
    match entry.type with
    | .nameSpace | .placeholder => do
      let (h, _) ← replaceResource P h e (create e) type
      let h ← callResourceTreeChangeHandlers P h e type .added
      pure (h, some e)
    | .input | .output | .observation => pure (h, none)

def resTreeGetInput (h : Hub) (baseNamespace : EntryRef) (path : CString) (dataType : DataType)
    (units : CString) : Except Fault (Hub × Option EntryRef) :=
  getIo P (resCreateInput P · dataType units) .input h baseNamespace path

def resTreeGetOutput (h : Hub) (baseNamespace : EntryRef) (path : CString) (dataType : DataType)
    (units : CString) : Except Fault (Hub × Option EntryRef) :=
  getIo P (resCreateOutput P · dataType units) .output h baseNamespace path

/-- `resTree_GetObservation` -/
def resTreeGetObservation (fuel : Nat) (h : Hub) (baseNamespace : EntryRef) (path : CString) :
    Except Fault (Hub × Option EntryRef) := do
  let (h, found) ← goToEntry P h baseNamespace path true
  match found with
  | none => pure (h, none)
  | some e => do
    let entry ← h.getEntry e
    match entry.type with
    | .nameSpace | .placeholder => do
      let (h, r) ← replaceResource P h e (resCreateObservation e) .observation
      let h ← resRestoreBackup P fuel h r
      let h ← callResourceTreeChangeHandlers P h e .observation .added
      pure (h, some e)
    | .input | .output => pure (h, none)
    | .observation => pure (h, some e)

/-- The resource attached to an entry; NULL is dereferenced if there is none. -/
def attachedTo (h : Hub) (e : EntryRef) : Except Fault ResRef := do
  let entry ← h.getEntry e
  match entry.resourcePtr with
  | some r => pure r
  | none => .error .nullDeref

/-- Detach the resource from an entry, converting the entry into a Namespace. -/
def detach (h : Hub) (e : EntryRef) : Except Fault Hub :=
  h.modifyEntry e fun entry => { entry with resourcePtr := none, type := .nameSpace }

/-- `resTree_DeleteIO` -/
def resTreeDeleteIO (h : Hub) (e : EntryRef) : Except Fault Hub := do
  let r ← attachedTo h e
  let entry ← h.getEntry e
  let h ← callResourceTreeChangeHandlers P h e entry.type .removed
  let x ← h.getResource r
  if resHasAdminSettings x then do
    let (h, _) ← replaceResource P h e (resCreatePlaceholder e) .placeholder
    pure h
  else do
    let h ← detach h e
    let h ← releaseResource P h r
    releaseEntry (e + 1) h e

/-- `resTree_DeleteObservation` -/
def resTreeDeleteObservation (fuel : Nat) (h : Hub) (e : EntryRef) : Except Fault Hub := do
  let h ← callResourceTreeChangeHandlers P h e .observation .removed
  let r ← attachedTo h e
  let h ← resDeleteObservation P fuel h r
  let h ← detach h e
  releaseEntry (e + 1) h e

/-- `resTree_Push`: a Namespace throws the sample away. -/
def resTreePush (fuel : Nat) (h : Hub) (e : EntryRef) (dataType : DataType) (s : DataSample) :
    Except Fault Hub := do
  let entry ← h.getEntry e
  if entry.type = .nameSpace then pure h
  else do
    let r ← attachedTo h e
    resPush P fuel h r dataType [] s

/-- `resTree_SetSource` -/
def resTreeSetSource (fuel : Nat) (h : Hub) (destEntry : EntryRef) (srcEntry : Option EntryRef) :
    Except Fault (Hub × LeResult) := do
  let entry ← h.getEntry destEntry
  if entry.type = .nameSpace then .error .fatal
  else do
    let dest ← attachedTo h destEntry
    match srcEntry with
    | none => resSetSource P fuel h dest none
    | some srcEntry => do
      let entry ← h.getEntry srcEntry
      resSetSource P fuel h dest entry.resourcePtr

/-- `ForEachResourceUnder` -/
def forEachResourceUnder (func : Hub → ResRef → Except Fault Hub) :
    Nat → Hub → EntryRef → Except Fault Hub
  | 0, _, _ => .error .outOfFuel
  | fuel + 1, h, e => do
    let entry ← h.getEntry e
    entry.childList.foldlM (fun h c => do
      let h ← apply h c
      forEachResourceUnder func fuel h c) h
where
  apply (h : Hub) (c : EntryRef) : Except Fault Hub := do
    let child ← h.getEntry c
    match child.resourcePtr with
    | some r => func h r
    | none => pure h

/-- `ClearConfigChangingFlag` -/
def clearConfigChangingFlag (h : Hub) (r : ResRef) : Except Fault Hub :=
  h.modifyResource r fun x => { x with isConfigChanging := false }

/-- The part of a backup file's name before the first occurrence of the suffix. -/
def beforeSuffix : CString → Option CString
  | [] => none
  | c :: rest =>
    if backupSuffix.isPrefixOf (c :: rest) then some []
    else (beforeSuffix rest).map (c :: ·)

/-- `BackupDirTreeWalkCallback` for a regular file: delete it if no Observation uses it. -/
def deleteIfUnused (h : Hub) (path : CString) : Except Fault Hub :=
  match beforeSuffix (path.drop (backupDir P).length) with
  | none => pure h
  | some obsName =>
    if ioMaxResourcePathLen + 1 ≤ obsName.length + 6 then pure h
    else do
      let found ← resTreeFindEntry P h rootPtr (ascii "/obs/" ++ obsName)
      let used ← isUsed found
      pure (if used then h else { h with files := h.files.filter fun f => f.1 ≠ path })
where
  isUsed : Option EntryRef → Except Fault Bool
    | none => pure false
    | some e => do
      let entry ← h.getEntry e
      if entry.type ≠ .observation then pure false
      else do
        let r ← attachedTo h e
        let x ← h.getResource r
        match x.cls with
        | .observation o => pure (decide (o.backupPeriod ≠ 0))
        | _ => .error .badDowncast

/-- `obs_DeleteUnusedBackupFiles` -/
def obsDeleteUnusedBackupFiles (h : Hub) : Except Fault Hub :=
  if h.env.fileSystemUp then (h.files.map (·.1)).foldlM (deleteIfUnused P) h else pure h

/-- `res_StartUpdate` -/
def resStartUpdate (h : Hub) : Hub := { h with isUpdateInProgress := true }

/-- `res_EndUpdate`. The tree is no deeper than there are entries. -/
def resEndUpdate (h : Hub) : Except Fault Hub := do
  let h := { h.emit .endingUpdate with isUpdateInProgress := false }
  let h ← forEachResourceUnder clearConfigChangingFlag (h.nextEntry + 1) h rootPtr
  obsDeleteUnusedBackupFiles P h

end MangOH.DataHub
