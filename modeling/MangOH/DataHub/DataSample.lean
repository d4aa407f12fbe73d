import MangOH.DataHub.Types
import MangOH.Lib.Outcome

/-! The data sample class, and the coercions that an Input or Output applies to samples. -/
namespace MangOH.DataHub

/-- What the hub uses of the C library, of Legato and of the JSON parser. -/
structure Platform where
  add : Double → Double → Double
  sub : Double → Double → Double
  mul : Double → Double → Double
  div : Double → Double → Double
  sqrt : Double → Double
  ofNat : Nat → Double
  /-- `printf` with `%lf` -/
  formatLf : Double → CString
  /-- what `le_utf8_Copy` leaves of a string that does not fit that many bytes -/
  utf8Truncate : Nat → CString → CString
  jsonIsValid : CString → Bool
  jsonExtract : CString → CString → Option (JsonType × CString)
  jsonConvertToBoolean : CString → Bool
  jsonConvertToNumber : CString → Double
  sizeofPointer : Nat
  leLimitAppNameLen : Nat
  /-- `le_appInfo_GetName` of the client behind an IPC session -/
  appName : Nat → Option CString
  /-- `LEGATO_EMBEDDED` is defined -/
  legatoEmbedded : Bool
  /-- what `le_sls_PeekNext` returns for an entry that is no longer in the list -/
  peekNextUnlinked : List BufferEntry → BufferEntry → Option BufferEntry

variable (P : Platform) (env : Environment)

/-- `le_utf8_Copy` into a buffer of `size` bytes. -/
def leUtf8Copy (size : Nat) (s : CString) : CString :=
  if s.length < size then s else P.utf8Truncate (size - 1) s

/-- The text that `dataSample_CreateString` copies out of a C string: `LE_FATAL` if too long. -/
def textOf (buff : Bytes) : Except Fault Text :=
  if h : (cString buff).length ≤ ioMaxStringValueLen then
    .ok ⟨cString buff, zero_notMem_cString buff, h⟩
  else
    .error .fatal

/-- `CreateSample`: a zero timestamp (`IO_NOW`) stands for the current time. -/
def createSample (timestamp : Double) (value : Value) : DataSample :=
  { timestamp := if timestamp.eq .zero then env.now else timestamp, value, via := [] }

def dataSampleCreateTrigger (timestamp : Double) : DataSample :=
  createSample env timestamp .trigger

def dataSampleCreateBoolean (timestamp : Double) (value : Bool) : DataSample :=
  createSample env timestamp (.boolean value)

def dataSampleCreateNumeric (timestamp : Double) (value : Double) : DataSample :=
  createSample env timestamp (.numeric value)

def dataSampleCreateString (timestamp : Double) (value : Bytes) : Except Fault DataSample := do
  let text ← textOf value
  pure (createSample env timestamp (.string text))

def dataSampleCreateJson (timestamp : Double) (value : Bytes) : Except Fault DataSample := do
  let text ← textOf value
  pure (createSample env timestamp (.json text))

def dataSampleGetTimestamp (s : DataSample) : Double := s.timestamp

def dataSampleGetBoolean (s : DataSample) : Except Fault Bool :=
  match s.value with
  | .boolean b => .ok b
  | _ => .error .typeConfusion

def dataSampleGetNumeric (s : DataSample) : Except Fault Double :=
  match s.value with
  | .numeric d => .ok d
  | _ => .error .typeConfusion

/-- `dataSample_GetString` and `dataSample_GetJson` return the same member of the union; the data
type is the one under which the caller asks for it. -/
def dataSampleGetText : DataType → DataSample → Except Fault CString
  | .string, ⟨_, .string t, _, _⟩ => .ok t.bytes
  | .json, ⟨_, .json t, _, _⟩ => .ok t.bytes
  | _, _ => .error .typeConfusion

def dataSampleGetString (s : DataSample) : Except Fault CString := dataSampleGetText .string s

def dataSampleGetJson (s : DataSample) : Except Fault CString := dataSampleGetText .json s

/-- `dataSample_ConvertToJson` into a buffer of `size` bytes; `none` is `LE_OVERFLOW`. -/
def dataSampleConvertToJson (s : DataSample) (dataType : DataType) (size : Nat) :
    Except Fault (Option CString) :=
  match dataType with
  | .trigger => .ok (if 0 < size then some [] else none)
  | .boolean => do
    let b ← dataSampleGetBoolean s
    let text := ascii (if b then "true" else "false")
    pure (if text.length < size then some text else none)
  | .numeric => do
    let d ← dataSampleGetNumeric s
    let text := P.formatLf d
    pure (if text.length < size then some text else none)
  | .string => do
    let text ← dataSampleGetString s
    pure (if text.length + 2 < size then some (ascii "\"" ++ text ++ ascii "\"") else none)
  | .json => do
    let text ← dataSampleGetJson s
    pure (if text.length < size then some text else none)

def dataSampleConvertToString (s : DataSample) (dataType : DataType) (size : Nat) :
    Except Fault (Option CString) :=
  if dataType = .string then do
    let text ← dataSampleGetString s
    pure (if text.length < size then some text else none)
  else
    dataSampleConvertToJson P s dataType size

/-- `dataSample_ExtractJson`: the extracted sample and its data type, or `none` if that failed. -/
def dataSampleExtractJson (s : DataSample) (extractionSpec : CString) :
    Except Fault (Option (DataType × DataSample)) := do
  let json ← dataSampleGetJson s
  match P.jsonExtract json extractionSpec with
  | none => pure none
  | some (.null, _) => pure (some (.trigger, dataSampleCreateTrigger env s.timestamp))
  | some (.boolean, result) =>
    pure (some (.boolean,
      dataSampleCreateBoolean env s.timestamp (P.jsonConvertToBoolean result)))
  | some (.number, result) =>
    pure (some (.numeric,
      dataSampleCreateNumeric env s.timestamp (P.jsonConvertToNumber result)))
  | some (.string, result) => do
    let extracted ← dataSampleCreateString env s.timestamp result
    pure (some (.string, extracted))
  | some (.object, result) | some (.array, result) => do
    let extracted ← dataSampleCreateJson env s.timestamp result
    pure (some (.json, extracted))

/-- `dataSample_Copy` reads the payload under the given data type. -/
def dataSampleCopy (dataType : DataType) (original : DataSample) : Except Fault DataSample :=
  if original.type = dataType then .ok original else .error .typeConfusion

def dataSampleSetTimestamp (s : DataSample) (timestamp : Double) : DataSample :=
  { s with timestamp }

/-- `snprintf` with `%lf` into a string buffer of the hub, emptied on overflow. -/
def formatNumeric (d : Double) : CString :=
  let text := P.formatLf d
  if text.length < hubMaxStringBytes then text else []

/-- `snprintf` with `\"%s\"`. On overflow the closing quote is put at `sizeof(newValue - 2)`,
which is the size of a pointer, and the terminator over it. -/
def quoteString (text : CString) : CString :=
  let quoted := ascii "\"" ++ text ++ ascii "\""
  if quoted.length < hubMaxStringBytes then quoted else quoted.take P.sizeofPointer

/-- The sample `toSample` that `ioPoint_DoTypeCoercion` creates when the types differ. -/
def coercedSample (toType fromType : DataType) (s : DataSample) : Except Fault DataSample :=
  match toType with
  | .trigger => pure (dataSampleCreateTrigger env s.timestamp)
  | .boolean =>
    match fromType with
    | .trigger => pure (dataSampleCreateBoolean env s.timestamp false)
    | .boolean => pure s
    | .numeric => do
      let value ← dataSampleGetNumeric s
      pure (dataSampleCreateBoolean env s.timestamp (!value.eq .zero))
    | .string => do
      let value ← dataSampleGetString s
      pure (dataSampleCreateBoolean env s.timestamp (!value.isEmpty))
    | .json => do
      let value ← dataSampleGetJson s
      pure (dataSampleCreateBoolean env s.timestamp (P.jsonConvertToBoolean value))
  | .numeric =>
    match fromType with
    | .trigger => pure (dataSampleCreateNumeric env s.timestamp .nan)
    | .boolean => do
      let value ← dataSampleGetBoolean s
      pure (dataSampleCreateNumeric env s.timestamp (if value then .one else .zero))
    | .numeric => pure s
    | .string => do
      let value ← dataSampleGetString s
      pure (dataSampleCreateNumeric env s.timestamp (if value.isEmpty then .zero else .one))
    | .json => do
      let value ← dataSampleGetJson s
      pure (dataSampleCreateNumeric env s.timestamp (P.jsonConvertToNumber value))
  | .string =>
    match fromType with
    | .trigger => dataSampleCreateString env s.timestamp []
    | .boolean => do
      let value ← dataSampleGetBoolean s
      dataSampleCreateString env s.timestamp (ascii (if value then "true" else "false"))
    | .numeric => do
      let value ← dataSampleGetNumeric s
      dataSampleCreateString env s.timestamp (formatNumeric P value)
    | .string => pure s
    | .json => do
      let value ← dataSampleGetJson s
      dataSampleCreateString env s.timestamp value
  | .json =>
    match fromType with
    | .trigger => dataSampleCreateJson env s.timestamp (ascii "null")
    | .boolean => do
      let value ← dataSampleGetBoolean s
      dataSampleCreateJson env s.timestamp (ascii (if value then "true" else "false"))
    | .numeric => do
      let value ← dataSampleGetNumeric s
      dataSampleCreateJson env s.timestamp (formatNumeric P value)
    | .string => do
      let value ← dataSampleGetString s
      dataSampleCreateJson env s.timestamp (quoteString P value)
    | .json => pure s

/-- `ioPoint_DoTypeCoercion`: the sample that a resource of type `toType` accepts for `s`. -/
def doTypeCoercion (toType fromType : DataType) (s : DataSample) : Except Fault DataSample :=
  if fromType = toType then pure s
  else do
    let toSample ← coercedSample P env toType fromType s
    pure { toSample with via := s.via, hops := s.hops }

/-- The sample that the push functions and the set functions create from their argument. -/
def createFromArgument (timestamp : Double) : Argument → Except Fault DataSample
  | .trigger => pure (dataSampleCreateTrigger env timestamp)
  | .boolean b => pure (dataSampleCreateBoolean env timestamp b)
  | .numeric d => pure (dataSampleCreateNumeric env timestamp d)
  | .string value => dataSampleCreateString env timestamp value
  | .json value => dataSampleCreateJson env timestamp value

end MangOH.DataHub
