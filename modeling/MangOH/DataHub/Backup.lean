import MangOH.DataHub.Observation
import MangOH.Lib.Codec

/-! Non-volatile backups of sample buffers: the file format, writing and reading it back. -/
namespace MangOH.DataHub

open Codec

variable (P : Platform)

/-- `BACKUP_DIR` -/
def backupDir : CString :=
  ascii (if P.legatoEmbedded then "/home/root/dataHubBackup/" else "backup/")

def backupSuffix : CString := ascii ".bak"

def maxBackupFilePathBytes : Nat :=
  (backupDir P).length + ioMaxResourcePathLen + backupSuffix.length + 1

/-- `GetBackupFilePath` into a buffer of `size` bytes. The `/obs` entry itself has an empty
relative path, for which the result names the directory: no file can be opened or removed there. -/
def getBackupFilePath (size : Nat) (ctx : ObsContext) : Option CString :=
  match ctx.obsPath with
  | none | some [] => none
  | some relPath =>
    let path := backupDir P ++ relPath ++ backupSuffix
    if path.length < size then some path else none

/-- `DeleteBackup`, whose path buffer has only `IO_MAX_RESOURCE_PATH_LEN` bytes. -/
def deleteBackup (ctx : ObsContext) : List ObsEvent :=
  match getBackupFilePath P ioMaxResourcePathLen ctx with
  | some path => if ctx.env.fileSystemUp then [.unlinked path] else []
  | none => []

/-- `GetDataTypeCode` -/
def getDataTypeCode : DataType → UInt8
  | .trigger => 0x74
  | .boolean => 0x62
  | .numeric => 0x6e
  | .string => 0x73
  | .json => 0x6a

/-- `GetDataTypeFromCode` -/
def getDataTypeFromCode (code : UInt8) : Option DataType :=
  if code = 0x74 then some .trigger
  else if code = 0x62 then some .boolean
  else if code = 0x6e then some .numeric
  else if code = 0x73 then some .string
  else if code = 0x6a then some .json
  else none

@[simp] theorem getDataTypeFromCode_getDataTypeCode (t : DataType) :
    getDataTypeFromCode (getDataTypeCode t) = some t := by
  cases t <;> rfl

theorem getDataTypeCode_injective : Function.Injective getDataTypeCode := by
  intro a b h
  have := congrArg getDataTypeFromCode h
  simpa using this

/-- `WriteToStream`: `fwrite` of an object of size 0 returns 0, which counts as a failure. -/
def writeToStream (buff : Bytes) : Option Bytes := if buff = [] then none else some buff

/-- The part of the loop in `WriteSamplesToFile` that depends on the data type. -/
def writeValue (dataType : DataType) (s : DataSample) : Except Fault (Option Bytes) :=
  match dataType with
  | .trigger => pure (some [])
  | .boolean => do
    let value ← dataSampleGetBoolean s
    pure (writeToStream [if value then 1 else 0])
  | .numeric => do
    let value ← dataSampleGetNumeric s
    pure (writeToStream (encodeLe 8 value.bits.toNat))
  | .string | .json => do
    let text ← dataSampleGetText dataType s
    pure ((writeToStream text).map (encodeLe 4 text.length ++ ·))

/-- `WriteSamplesToFile`: the bytes written, or `none` as soon as writing fails. -/
def writeSamplesToFile (dataType : DataType) : List DataSample → Except Fault (Option Bytes)
  | [] => pure (some [])
  | s :: rest => do
    match ← writeValue dataType s with
    | none => pure none
    | some value =>
      let others ← writeSamplesToFile dataType rest
      pure (others.map fun bytes => encodeLe 8 s.timestamp.bits.toNat ++ (value ++ bytes))

/-- The file that `Backup` writes: version, type code, number of samples, samples. -/
def backupContent (currentType : DataType) (o : Observation) : Except Fault (Option Bytes) := do
  let samples ← writeSamplesToFile o.bufferedType o.samples
  pure (samples.map fun bytes =>
    0 :: getDataTypeCode currentType :: (encodeLe 4 o.count ++ bytes))

/-- `Backup` -/
def backup (ctx : ObsContext) (o : Observation) : Except Fault (Observation × List ObsEvent) :=
  let started : ObsEvent := .backingUp ctx.currentType o.bufferedType o.samples
  let o := { o with backupTimer := false, lastBackupTime := ctx.env.relSec % 2 ^ 32 }
  match getBackupFilePath P (maxBackupFilePathBytes P) ctx with
  | none => pure (o, [started])
  | some path =>
    if !ctx.env.fileSystemUp then pure (o, [started])
    else do
      match ← backupContent ctx.currentType o with
      | none => pure (o, [started])
      | some content => pure (o, [started, .committed path content])

/-- `DisableBackups` -/
def disableBackups (ctx : ObsContext) (o : Observation) : Observation × List ObsEvent :=
  ({ o with backupTimer := false, lastBackupTime := 0 }, deleteBackup P ctx)

/-- The part of the loop in `ReadSamplesFromFile` that depends on the data type. -/
def readValue (env : Environment) (dataType : DataType) (timestamp : Double) (file : Bytes) :
    Except Fault (Option (DataSample × Bytes)) :=
  match dataType with
  | .trigger => pure (some (dataSampleCreateTrigger env timestamp, file))
  | .boolean => pure <| (takeBytes 1 file).map fun (b, file) =>
      (dataSampleCreateBoolean env timestamp (b ≠ [0]), file)
  | .numeric => pure <| (takeBytes 8 file).map fun (b, file) =>
      (dataSampleCreateNumeric env timestamp ⟨BitVec.ofNat 64 (decodeLe b)⟩, file)
  | .string => readText dataSampleCreateString
  | .json => readText dataSampleCreateJson
where
  readText (create : Environment → Double → Bytes → Except Fault DataSample) :
      Except Fault (Option (DataSample × Bytes)) :=
    match takeBytes 4 file with
    | none => pure none
    | some (stringLen, file) =>
      if ioMaxStringValueLen < decodeLe stringLen then pure none
      else match takeBytes (decodeLe stringLen) file with
        | none => pure none
        | some (value, file) => do
          let s ← create env timestamp value
          pure (some (s, file))

/-- The loop of `ReadSamplesFromFile` after it has read a sample and expects that many more. The
result holds the newest sample unless the file turns out to be corrupt. -/
def readSamples (env : Environment) (dataType : DataType) :
    Nat → Observation → DataSample → Bytes → Except Fault (Observation × Option DataSample)
  | 0, o, newest, file => pure (o, if file.length < 8 then some newest else none)
  | n + 1, o, newest, file =>
    let o := addToBuffer o newest
    readNext o file (readSamples env dataType n o)
where
  readNext (o : Observation) (file : Bytes)
      (next : DataSample → Bytes → Except Fault (Observation × Option DataSample)) :
      Except Fault (Observation × Option DataSample) :=
    match takeBytes 8 file with
    | none => pure (o, none)
    | some (timestamp, file) => do
      match ← readValue env dataType ⟨BitVec.ofNat 64 (decodeLe timestamp)⟩ file with
      | none => pure (o, none)
      | some (s, file) => next s file

/-- `ReadSamplesFromFile`. All samples but the newest go straight into the buffer; the newest is
returned, for `res_Push`. On any error the buffer is dumped. -/
def readSamplesFromFile (env : Environment) (o : Observation) (file : Bytes) (count : Nat) :
    Except Fault (Observation × List ObsEvent × Option DataSample) :=
  match count with
  | 0 => pure (o, [], none)
  | n + 1 => do
    let read ← readSamples.readNext env o.bufferedType o file (readSamples env o.bufferedType n o)
    match read.2 with
    | some newest => pure (read.1, [], some newest)
    | none => do
      let emptied ← truncateBuffer read.1 0
      pure (emptied.1, emptied.2, none)

/-- `obs_RestoreBackup` up to the push of the newest sample, given the file's content. -/
def obsRestoreContent (env : Environment) (o : Observation) (file : Bytes) :
    Except Fault (Observation × List ObsEvent × Option DataSample) :=
  match file with
  | version :: code :: file =>
    if version ≠ 0 then pure (o, [], none)
    else match getDataTypeFromCode code with
      | none => pure (o, [], none)
      | some dataType =>
        let o := { o with bufferedType := dataType }
        match takeBytes 4 file with
        | none => pure (o, [], none)
        | some (count, file) =>
          let count := decodeLe count
          let o := { o with maxCount := if o.maxCount = 0 then count else o.maxCount }
          readSamplesFromFile env o file count
  | _ => pure (o, [], none)

/-- `obs_ProcessAccepted` -/
def obsProcessAccepted (ctx : ObsContext) (o : Observation) (dataType : DataType)
    (s : DataSample) : Except Fault (Observation × List ObsEvent) :=
  if o.maxCount = 0 then pure (o, [])
  else do
    let (o, dumped) ← retype o
    let (o, evicted) ← truncateBuffer (addToBuffer o s) o.maxCount
    let (o, saved) ← save o
    pure (o, dumped ++ (evicted ++ saved))
where
  retype (o : Observation) : Except Fault (Observation × List ObsEvent) :=
    if o.bufferedType = dataType then pure (o, [])
    else do
      let (o, dumped) ← truncateBuffer o 0
      pure ({ o with bufferedType := dataType }, dumped)
  save (o : Observation) : Except Fault (Observation × List ObsEvent) :=
    if o.backupPeriod = 0 then pure (o, [])
    else if (o.lastBackupTime + o.backupPeriod) % 2 ^ 32 ≤ ctx.env.relSec then backup P ctx o
    else pure ({ o with backupTimer := true }, [])

/-- `obs_SetTransform`, less the drop of the resource's pushed value. -/
def obsSetTransform (o : Observation) (transformType : TransformType) :
    Except Fault (Observation × List ObsEvent) :=
  truncateBuffer
    { o with
      transformType
      maxCount := if transformType ≠ .none ∧ o.maxCount = 0 then 1 else o.maxCount } 0

/-- `obs_SetBufferMaxCount` -/
def obsSetBufferMaxCount (ctx : ObsContext) (o : Observation) (count : UInt32) :
    Except Fault (Observation × List ObsEvent) :=
  if o.maxCount = count.toNat then pure (o, [])
  else
    let (o, disabled) :=
      if count.toNat = 0 ∧ 0 < o.backupPeriod then disableBackups P ctx o else (o, [])
    do
      let (o, evicted) ← truncateBuffer { o with maxCount := count.toNat } count.toNat
      pure (o, disabled ++ evicted)

/-- `obs_SetBufferBackupPeriod` -/
def obsSetBufferBackupPeriod (ctx : ObsContext) (o : Observation) (seconds : UInt32) :
    Except Fault (Observation × List ObsEvent) :=
  if o.backupPeriod = seconds.toNat then pure (o, [])
  else
    let oldPeriod := o.backupPeriod
    let o := { o with backupPeriod := seconds.toNat }
    if o.maxCount = 0 then pure (o, [])
    else if seconds.toNat = 0 then pure (disableBackups P ctx o)
    else if o.sampleList.isEmpty ∨ oldPeriod = 0 ∨ o.backupTimer = false then pure (o, [])
    else if (o.lastBackupTime + seconds.toNat) % 2 ^ 32 < ctx.env.relSec then
      backup P ctx { o with backupTimer := false }
    else pure (o, [])

end MangOH.DataHub
