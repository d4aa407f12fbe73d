import MangOH.DataHub.DataSample
import Mathlib.Logic.Function.Basic

/-! Observations: the record, its sample buffer, its queries and its filters. -/
namespace MangOH.DataHub

inductive TransformType
  | none
  | mean
  | stddev
  | max
  | min
deriving DecidableEq, Repr

/-- The `state` of a read operation: what is written next. -/
inductive ReadState
  | start
  | sample
  | comma
  | closing
deriving DecidableEq, Repr

/-- `ReadOperation_t`. The fields `emitted` and `output` are not part of it: they record the
buffer entries loaded into the write buffer, with their texts, and the bytes written to the file
descriptor. -/
structure ReadOperation where
  id : Nat
  nextEntryPtr : Option BufferEntry
  state : ReadState
  writeBuffer : CString
  writeOffset : Nat
  emitted : List (BufferEntry × CString)
  output : CString

/-- `Observation_t`, less the base class. `refCount` holds the reference counts of the buffer
entries and `nextEntry` is the id of the next one to be allocated. -/
structure Observation where
  highLimit : Double
  lowLimit : Double
  changeBy : Double
  minPeriod : Double
  lastPushTime : Nat
  transformType : TransformType
  maxCount : Nat
  count : Nat
  bufferedType : DataType
  backupPeriod : Nat
  lastBackupTime : Nat
  backupTimer : Bool
  sampleList : List BufferEntry
  readOpList : List ReadOperation
  jsonExtraction : CString
  refCount : Nat → Nat
  nextEntry : Nat

/-- `obs_Create` -/
def obsCreate : Observation where
  highLimit := .nan
  lowLimit := .nan
  changeBy := .nan
  minPeriod := .nan
  lastPushTime := 0
  transformType := .none
  maxCount := 0
  count := 0
  bufferedType := .trigger
  backupPeriod := 0
  lastBackupTime := 0
  backupTimer := false
  sampleList := []
  readOpList := []
  jsonExtraction := []
  refCount := fun _ => 0
  nextEntry := 0

/-- What an Observation does besides changing its own record. Constructors ending in
-ing only record the state in which a step of it started. -/
inductive ObsEvent
  /-- `TruncateBuffer` pops an entry that has this reference count -/
  | evicting (refCount : Nat)
  /-- `Backup` starts: the type of the resource, the type of the buffer and its samples -/
  | backingUp (currentType bufferedType : DataType) (samples : List DataSample)
  /-- `LoadReadOpBuffer` renders a sample at a type, out of a buffer of some type -/
  | loading (dataType bufferedType : DataType) (sample : DataSample)
  /-- the destructor starts, with a backup timer running or not -/
  | destructing (backupTimer : Bool)
  | committed (path : CString) (content : Bytes)
  | unlinked (path : CString)
  | readDone (op : ReadOperation) (result : LeResult)

/-- Where an Observation finds itself when one of its functions is called. -/
structure ObsContext where
  env : Environment
  /-- its path relative to the `/obs` namespace -/
  obsPath : Option CString
  /-- `currentType` of its resource -/
  currentType : DataType

variable (P : Platform)

namespace Observation

def addRef (o : Observation) (e : BufferEntry) : Observation :=
  { o with refCount := Function.update o.refCount e.id (o.refCount e.id + 1) }

def release (o : Observation) (e : BufferEntry) : Observation :=
  { o with refCount := Function.update o.refCount e.id (o.refCount e.id - 1) }

def samples (o : Observation) : List DataSample := o.sampleList.map (·.sampleRef)

end Observation

/-- `GetOldestBufferEntry` -/
def getOldestBufferEntry (o : Observation) : Option BufferEntry := o.sampleList.head?

/-- `GetNextBufferEntry` -/
def getNextBufferEntry (o : Observation) (e : BufferEntry) : Option BufferEntry :=
  match o.sampleList.dropWhile (·.id ≠ e.id) with
  | _ :: rest => rest.head?
  | [] => P.peekNextUnlinked o.sampleList e

/-- `AddToBuffer`: a sample older than the newest one in the buffer is dropped. -/
def addToBuffer (o : Observation) (s : DataSample) : Observation :=
  match o.sampleList.getLast? with
  | some newest => if s.timestamp.lt newest.sampleRef.timestamp then o else queue
  | none => queue
where
  queue : Observation :=
    { o with
      sampleList := o.sampleList ++ [⟨o.nextEntry, s⟩]
      refCount := Function.update o.refCount o.nextEntry 1
      nextEntry := o.nextEntry + 1
      count := o.count + 1 }

/-- One round of the loop in `TruncateBuffer`. -/
def popOldest (o : Observation) : Except Fault (Observation × ObsEvent) :=
  match o.sampleList with
  | [] => .error .nullDeref
  | e :: rest =>
    .ok ({ o with sampleList := rest, count := o.count - 1 }.release e, .evicting (o.refCount e.id))

def truncateLoop : Nat → Observation → Except Fault (Observation × List ObsEvent)
  | 0, o => .ok (o, [])
  | k + 1, o => do
    let popped ← popOldest o
    let rest ← truncateLoop k popped.1
    pure (rest.1, popped.2 :: rest.2)

/-- `TruncateBuffer`. Each round takes one off `count`, so there are `count - n` of them. -/
def truncateBuffer (o : Observation) (n : Nat) : Except Fault (Observation × List ObsEvent) :=
  truncateLoop (o.count - n) o

/-- `FindBufferEntry`: the entries from the one found on. -/
def findBufferEntry (env : Environment) (o : Observation) (startTime : Double) :
    List BufferEntry :=
  if startTime.isNaN then o.sampleList
  else
    let startTime := if startTime.le .thirtyYears then P.sub env.now startTime else startTime
    o.sampleList.dropWhile fun e => !startTime.le e.sampleRef.timestamp

/-- The search of `obs_ReadBufferJson` and `obs_FindBufferedSampleAfter`, which skips an exact
match of the start time. -/
def findAfter (env : Environment) (o : Observation) (startAfter : Double) : Option BufferEntry :=
  match findBufferEntry P env o startAfter with
  | [] => none
  | e :: rest => if e.sampleRef.timestamp.eq startAfter then rest.head? else some e

/-- `obs_FindBufferedSampleAfter` -/
def obsFindBufferedSampleAfter (env : Environment) (o : Observation) (startAfter : Double) :
    Option DataSample :=
  (findAfter P env o startAfter).map (·.sampleRef)

/-- `GetBufferedNumber` -/
def getBufferedNumber (e : BufferEntry) (dataType : DataType) : Except Fault Double :=
  match dataType with
  | .numeric => dataSampleGetNumeric e.sampleRef
  | .boolean => do
    let b ← dataSampleGetBoolean e.sampleRef
    pure (if b then .one else .zero)
  | _ => pure .nan

/-- The numbers that the query loops visit: those of a numeric or Boolean buffer, less NaNs. -/
def bufferedNumbers (env : Environment) (o : Observation) (startTime : Double) :
    Except Fault (List Double) :=
  if o.bufferedType ≠ .numeric ∧ o.bufferedType ≠ .boolean then pure []
  else do
    let numbers ← (findBufferEntry P env o startTime).mapM (getBufferedNumber · o.bufferedType)
    pure (numbers.filter fun d => !d.isNaN)

def obsQueryMin (env : Environment) (o : Observation) (startTime : Double) :
    Except Fault Double := do
  let numbers ← bufferedNumbers P env o startTime
  pure (numbers.foldl (fun result value =>
    if result.isNaN || value.lt result then value else result) .nan)

def obsQueryMax (env : Environment) (o : Observation) (startTime : Double) :
    Except Fault Double := do
  let numbers ← bufferedNumbers P env o startTime
  pure (numbers.foldl (fun result value =>
    if result.isNaN || result.lt value then value else result) .nan)

def mean (numbers : List Double) : Double :=
  P.div (numbers.foldl P.add .zero) (P.ofNat numbers.length)

def obsQueryMean (env : Environment) (o : Observation) (startTime : Double) :
    Except Fault Double := do
  let numbers ← bufferedNumbers P env o startTime
  pure (if numbers.isEmpty then .nan else mean P numbers)

def obsQueryStdDev (env : Environment) (o : Observation) (startTime : Double) :
    Except Fault Double := do
  let numbers ← bufferedNumbers P env o startTime
  let square (d : Double) : Double := P.mul (P.sub d (mean P numbers)) (P.sub d (mean P numbers))
  pure (if numbers.isEmpty then .nan
    else P.sqrt (P.div (numbers.foldl (fun sum d => P.add sum (square d)) .zero)
      (P.ofNat numbers.length)))

/-- `UpdateSample` with the result of a transform. The NUMERIC case falls through harmlessly. -/
def updateSample (env : Environment) (s : DataSample) (dataType : DataType) (result : Double) :
    Except Fault DataSample :=
  match dataType with
  | .boolean => do
    let old ← dataSampleGetBoolean s
    let value := Double.zero.lt result
    pure (if old = value then s
      else { dataSampleCreateBoolean env s.timestamp value with via := s.via })
  | .numeric => do
    let old ← dataSampleGetNumeric s
    pure (if old.eq result then s
      else { dataSampleCreateNumeric env s.timestamp result with via := s.via })
  | _ => pure s

/-- `obs_ApplyTransform` -/
def obsApplyTransform (env : Environment) (o : Observation) (dataType : DataType)
    (s : DataSample) : Except Fault DataSample :=
  match o.transformType with
  | .none => pure s
  | .mean => do updateSample env s dataType (← obsQueryMean P env o .nan)
  | .stddev => do updateSample env s dataType (← obsQueryStdDev P env o .nan)
  | .max => do updateSample env s dataType (← obsQueryMax P env o .nan)
  | .min => do updateSample env s dataType (← obsQueryMin P env o .nan)

/-- `obs_DoJsonExtraction`: the sample to go on with, or `none` if it is to be ignored. -/
def obsDoJsonExtraction (env : Environment) (o : Observation) (dataType : DataType)
    (s : DataSample) : Except Fault (Option (DataType × DataSample)) :=
  if o.jsonExtraction = [] then pure (some (dataType, s))
  else if dataType ≠ .json then pure none
  else do
    let extracted ← dataSampleExtractJson P env s o.jsonExtraction
    pure (extracted.map fun e => (e.1, { e.2 with via := s.via }))

/-- The limits of `obs_ShouldAccept`: a deadband if the low limit is above the high one. -/
def withinLimits (o : Observation) (d : Double) : Bool :=
  if !o.highLimit.isNaN && !o.lowLimit.isNaN && o.highLimit.lt o.lowLimit then
    !(d.lt o.lowLimit && o.highLimit.lt d)
  else
    !(!o.lowLimit.isNaN && d.lt o.lowLimit) && !(!o.highLimit.isNaN && o.highLimit.lt d)

/-- The filter setting is in effect. -/
def Double.isSet (d : Double) : Bool := !d.eq .zero && !d.isNaN

/-- The comparison of `obs_ShouldAccept` with the previous value of the same type. -/
def changedEnough (o : Observation) (dataType : DataType) (s previous : DataSample) :
    Except Fault Bool :=
  match dataType with
  | .trigger => pure true
  | .boolean => do
    let new ← dataSampleGetBoolean s
    let old ← dataSampleGetBoolean previous
    pure (new != old)
  | .numeric => do
    let old ← dataSampleGetNumeric previous
    let new ← dataSampleGetNumeric s
    pure (!((P.sub new old).fabs.lt o.changeBy))
  | .string | .json => do
    let new ← dataSampleGetText dataType s
    let old ← dataSampleGetText dataType previous
    pure (new != old)

/-- `obs_ShouldAccept`, with the resource's current value, its type and whether it is overridden.
On acceptance `lastPushTime` is updated. -/
def obsShouldAccept (ctx : ObsContext) (o : Observation) (currentValue : Option DataSample)
    (overridden : Bool) (dataType : DataType) (s : DataSample) :
    Except Fault (Option Observation) := do
  let now := getRelativeTimeMs ctx.env
  let inLimits ← limitsPass
  if !inLimits then pure none
  else match currentValue with
    | none => pure (some { o with lastPushTime := now })
    | some previous => do
      let changed ← changePasses previous
      if !changed then pure none
      else if o.minPeriod.isSet
          && (P.ofNat ((now + 2 ^ 32 - o.lastPushTime) % 2 ^ 32)).lt
            (P.mul o.minPeriod .thousand) then
        pure none
      else pure (some { o with lastPushTime := now })
where
  limitsPass : Except Fault Bool :=
    if dataType = .numeric then do
      let d ← dataSampleGetNumeric s
      pure (withinLimits o d)
    else pure true
  changePasses (previous : DataSample) : Except Fault Bool :=
    if !o.changeBy.isSet then pure true
    else if overridden then pure false
    else if dataType = ctx.currentType then changedEnough P o dataType s previous
    else pure true

end MangOH.DataHub
