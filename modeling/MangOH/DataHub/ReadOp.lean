import MangOH.DataHub.Backup

/-! Read operations: streaming a sample buffer as JSON to a file descriptor. -/
namespace MangOH.DataHub

variable (P : Platform)

/-- The result of one call of `write` on a non-blocking file descriptor. -/
inductive WriteResult
  /-- at least one byte is written: this many more than the first, or as many as there are -/
  | wrote (n : Nat)
  | again
  | failed
deriving DecidableEq, Repr

/-- The reference that a read operation holds on its position. -/
def Observation.hold (o : Observation) : Option BufferEntry → Observation
  | some e => o.addRef e
  | none => o

def Observation.letGo (o : Observation) : Option BufferEntry → Observation
  | some e => o.release e
  | none => o

/-- What `LoadReadOpBuffer` prints of an entry; `none` if it does not fit the write buffer. -/
def renderEntry (dataType : DataType) (s : DataSample) : Except Fault (Option CString) :=
  let stamp := ascii "\x7b\"t\":" ++ P.formatLf s.timestamp ++ ascii ",\"v\":"
  if readOpBuffBytes ≤ stamp.length then pure none
  else do
    let json ← dataSampleConvertToJson P s dataType (readOpBuffBytes - stamp.length - 1)
    pure (json.map fun text => stamp ++ text ++ ascii "\x7d")

/-- The test at the top of the loop in `LoadReadOpBuffer`: an entry whose reference count is 1 is
taken to have fallen out of the buffer, and the read goes on at the oldest entry. -/
def catchUp (o : Observation) (e : BufferEntry) : Observation × Option BufferEntry :=
  if o.refCount e.id = 1 then
    let o := o.release e
    match getOldestBufferEntry o with
    | some oldest => (o.addRef oldest, some oldest)
    | none => (o, none)
  else (o, some e)

/-- The end of the loop in `LoadReadOpBuffer`: the reference moves on to the next entry. -/
def advance (o : Observation) (e : BufferEntry) : Observation × Option BufferEntry :=
  match getNextBufferEntry P o e with
  | some next => ((o.release e).addRef next, some next)
  | none => (o.release e, none)

/-- What `LoadReadOpBuffer` leaves behind: the buffer, the read and the samples rendered. -/
structure Loaded where
  obs : Observation
  op : ReadOperation
  events : List ObsEvent
  found : Bool

/-- The loop of `LoadReadOpBuffer`. Entries that cannot be rendered are skipped. -/
def loadLoop (dataType : DataType) : Nat → Observation → ReadOperation → Except Fault Loaded
  | 0, _, _ => .error .outOfFuel
  | fuel + 1, o, op =>
    match op.nextEntryPtr with
    | none => pure ⟨o, op, [], false⟩
    | some parked =>
      match catchUp o parked with
      | (o, none) => pure ⟨o, { op with nextEntryPtr := none }, [], false⟩
      | (o, some e) => do
        let text ← renderEntry P dataType e.sampleRef
        let moved := advance P o e
        let op := { op with nextEntryPtr := moved.2 }
        match text with
        | some text =>
          pure ⟨moved.1, { op with writeBuffer := text, emitted := op.emitted ++ [(e, text)] },
            [.loading dataType o.bufferedType e.sampleRef], true⟩
        | none => do
          let rest ← loadLoop dataType fuel moved.1 op
          pure { rest with events := .loading dataType o.bufferedType e.sampleRef :: rest.events }

/-- `LoadReadOpBuffer`. Two rounds more than the buffer is long are always enough. -/
def loadReadOpBuffer (dataType : DataType) (o : Observation) (op : ReadOperation) :
    Except Fault Loaded :=
  loadLoop P dataType (o.sampleList.length + 2) o { op with writeBuffer := [], writeOffset := 0 }

/-- `EndRead`, less the removal from `readOpList`. -/
def endRead (o : Observation) (op : ReadOperation) (result : LeResult) :
    Observation × ObsEvent :=
  (o.letGo op.nextEntryPtr, .readDone { op with nextEntryPtr := none } result)

/-- What `ContinueReadOp` writes next. -/
def pendingBytes (op : ReadOperation) : CString :=
  match op.state with
  | .start => ascii "["
  | .sample => op.writeBuffer.drop op.writeOffset
  | .comma => ascii ","
  | .closing => ascii "]"

/-- A read operation after an event: still going on, or ended. -/
structure Continued where
  obs : Observation
  op : Option ReadOperation
  events : List ObsEvent

/-- The state change in `ContinueReadOp` after `n` bytes were written. -/
def nextState (dataType : DataType) (o : Observation) (op : ReadOperation) (n : Nat) :
    Except Fault Continued :=
  let op := { op with output := op.output ++ (pendingBytes op).take n }
  match op.state with
  | .start =>
    pure ⟨o, some { op with state := if op.writeBuffer = [] then .closing else .sample }, []⟩
  | .sample =>
    let op := { op with writeOffset := op.writeOffset + n }
    if op.writeOffset = op.writeBuffer.length then do
      let loaded ← loadReadOpBuffer P dataType o op
      pure ⟨loaded.obs, some { loaded.op with state := if loaded.found then .comma else .closing },
        loaded.events⟩
    else pure ⟨o, some op, []⟩
  | .comma => pure ⟨o, some { op with state := .sample }, []⟩
  | .closing =>
    let ended := endRead o op .ok
    pure ⟨ended.1, none, [ended.2]⟩

/-- `ContinueReadOp`, given the results of its calls of `write`. It waits for the next event when
the descriptor would block. -/
def continueReadOp (dataType : DataType) :
    List WriteResult → Observation → ReadOperation → Except Fault Continued
  | [], o, op | .again :: _, o, op => pure ⟨o, some op, []⟩
  | .failed :: _, o, op =>
    let ended := endRead o op .commError
    pure ⟨ended.1, none, [ended.2]⟩
  | .wrote n :: script, o, op => do
    let next ← nextState P dataType o op (min (n + 1) (pendingBytes op).length)
    match next.op with
    | none => pure next
    | some op => do
      let rest ← continueReadOp dataType script next.obs op
      pure { rest with events := next.events ++ rest.events }

/-- The read operation's record in `readOpList` after an event on its descriptor. -/
def Continued.store (c : Continued) (id : Nat) : Observation :=
  match c.op with
  | some op =>
    { c.obs with readOpList := c.obs.readOpList.map fun r => if r.id = id then op else r }
  | none => { c.obs with readOpList := c.obs.readOpList.filter fun r => r.id ≠ id }

/-- `ReadOpFdEventHandler`: an error or hang-up ends the read, otherwise it goes on. -/
def readOpFdEventHandler (dataType : DataType) (o : Observation) (id : Nat) (hangUp : Bool)
    (script : List WriteResult) : Except Fault (Observation × List ObsEvent) :=
  match o.readOpList.find? (·.id = id) with
  | none => pure (o, [])
  | some op => do
    let c ← continueReadOp P dataType (if hangUp then [.failed] else script) o op
    pure (c.store id, c.events)

/-- `obs_ReadBufferJson` and `StartRead`, once the descriptor is in non-blocking mode. -/
def obsReadBufferJson (ctx : ObsContext) (o : Observation) (id : Nat) (startAfter : Double)
    (script : List WriteResult) : Except Fault (Observation × List ObsEvent) := do
  let startPtr := findAfter P ctx.env o startAfter
  let op : ReadOperation :=
    { id, nextEntryPtr := startPtr, state := .start, writeBuffer := [], writeOffset := 0,
      emitted := [], output := [] }
  let loaded ← loadReadOpBuffer P ctx.currentType (o.hold startPtr) op
  let o := { loaded.obs with readOpList := loaded.obs.readOpList ++ [loaded.op] }
  let c ← continueReadOp P ctx.currentType script o loaded.op
  pure (c.store id, loaded.events ++ c.events)

end MangOH.DataHub
