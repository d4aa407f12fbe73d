import Mathlib.Data.List.DropRight
import MangOH.Lib.JsonValues
import MangOH.Lib.Transcript
import MangOH.DataHub.Getters

/-! How the administrator's command line tool prints the entries of the resource tree. -/
namespace MangOH.AdminTool

open DataHub Transcript

/-- What ends the tool before it is done. -/
inductive Stop
  /-- `exit(EXIT_FAILURE)` -/
  | exitFailure
  /-- `LE_FATAL` or a failed `LE_ASSERT` of the tool -/
  | fatal
  /-- the hub fails while it works on a request -/
  | hub (fault : Fault)
  /-- the recursion is deeper than the fuel it was given -/
  | outOfFuel
deriving DecidableEq

inductive Printed
  | stdout (text : CString)
  | stderr (text : CString)
deriving DecidableEq

/-- What the tool runs on. -/
structure Console where
  P : Platform
  /-- what the hub may spend on a request -/
  hubFuel : Nat
  /-- the tool's IPC session with the hub -/
  session : Nat
  /-- `LE_RESULT_TXT` -/
  resultTxt : GetError → CString
  /-- a result code, by `printf` with `%d` -/
  resultCode : GetError → CString

abbrev Tool := Program Hub Printed Stop

/-- `printf`, and `putchar` -/
def print (text : CString) : Tool Unit := say (.stdout text)

/-- `fprintf(stderr, ..)` -/
def complain (text : CString) : Tool Unit := say (.stderr text)

/-- A request to the hub. -/
def request {α : Type} (get : Hub → Except Fault (Hub × α)) : Tool α :=
  ask fun h => (get h).mapError .hub

/-- A request that cannot change the hub. -/
def look {α : Type} (get : Hub → Except Fault α) : Tool α :=
  request fun h => (fun a => (h, a)) <$> get h

/-- `GetEntryName`: what is behind the last slash, or that slash if nothing is. -/
def getEntryName (path : CString) : CString :=
  if 0x2f ∈ path then
    let name := path.rtakeWhile (· ≠ 0x2f)
    if name = [] then ascii "/" else name
  else path

def entryTypeStr : Option EntryType → CString
  | none => ascii "** error: does not exist **"
  | some .nameSpace => ascii "namespace"
  | some .input => ascii "input"
  | some .output => ascii "output"
  | some .observation => ascii "observation"
  | some .placeholder => ascii "placeholder"

def dataTypeStr : DataType → CString
  | .trigger => ascii "trigger"
  | .boolean => ascii "Boolean"
  | .numeric => ascii "numeric"
  | .string => ascii "string"
  | .json => ascii "JSON"

def indent (depth : Nat) : Tool Unit := print (List.replicate depth (ascii "   ")).flatten

variable (C : Console)

def printCurrentValue (path : CString) : Tool Unit := do
  match ← request fun h => queryGetJson C.P h C.session path (ioMaxStringValueLen + 1) with
  | .ok (timestamp, value) =>
    print (value ++ ascii " (ts: " ++ C.P.formatLf timestamp ++ ascii ")\n")
  | .error .unavailable => do
    let mandatory ← look fun h => adminIsMandatory C.P h path
    print (if mandatory then ascii " <-- WARNING: unsatisfied mandatory output\n" else ascii "\n")
  | .error result => complain (ascii "** ERROR: " ++ C.resultTxt result ++ ascii "\n")

/-- The part that `PrintDefault` and `PrintOverride` have in common. -/
def printValue (v : AdminValue) (dataType : DataType) (path : CString) : Tool Unit :=
  match dataType with
  | .trigger => throw .fatal
  | .boolean => do
    let value ← look fun h => adminGetBoolean C.P v h path
    print (if value then ascii "true" else ascii "false")
  | .numeric => do
    let value ← look fun h => adminGetNumeric C.P v h path
    print (C.P.formatLf value)
  | .string => do
    match ← look fun h => adminGetString C.P v h path (ioMaxStringValueLen + 1) with
    | .ok string => print (ascii "\"" ++ string ++ ascii "\"")
    | .error .overflow => throw .fatal
    | .error _ => print (ascii "unable to retrieve string value.")
  | .json => do
    match ← look fun h => adminGetJson C.P v h path (ioMaxStringValueLen + 1) with
    | .ok string => print (ascii "JSON: " ++ string)
    | .error .overflow => throw .fatal
    | .error _ => print (ascii "unable to retrieve JSON value.")

def printDefault (path : CString) : Tool Unit := do
  let dataType ← look fun h => adminGetDefaultDataType C.P h path
  printValue C .ofDefault dataType path

def printOverride (path : CString) : Tool Unit := do
  match ← request fun h => queryGetDataType C.P h C.session path with
  | .error _ => complain (ascii "** ERROR: Failed to get data type.\n")
  | .ok resDataType => do
    let overrideType ← look fun h => adminGetOverrideDataType C.P h path
    printValue C .ofOverride overrideType path
    if resDataType ≠ overrideType then
      print (ascii "  <-- WARNING: Override has different data type than resource.")

def printDoubleSetting (label : CString) (value : Double) : Tool Unit :=
  if value.isNaN then print (label ++ ascii ": not set\n")
  else print (label ++ ascii ": " ++ C.P.formatLf value ++ ascii "\n")

def transformNameStr : TransformType → CString
  | .none => ascii "none (0)"
  | .mean => ascii "mean (1)"
  | .stddev => ascii "standard deviation (2)"
  | .max => ascii "maximum (3)"
  | .min => ascii "minimum (4)"

def printTransformSetting (label : CString) (value : TransformType) : Tool Unit :=
  print (label ++ ascii ": " ++ transformNameStr value ++ ascii "\n")

def printDataType (path : CString) (depth : Nat) : Tool Unit := do
  match ← request fun h => queryGetDataType C.P h C.session path with
  | .ok dataType => do
    indent depth
    -- the buffer for the example is one byte shorter than those for other values
    match ← request fun h => queryGetJsonExample C.P h C.session path ioMaxStringValueLen with
    | .ok example' => print (ascii "data type = " ++ dataTypeStr dataType ++ ascii " (e.g., '" ++
        example' ++ ascii "')\n")
    | .error _ => print (ascii "data type = " ++ dataTypeStr dataType ++ ascii "\n")
  | .error result => complain (ascii "** Error getting data type: " ++ C.resultCode result ++
      ascii " (" ++ C.resultTxt result ++ ascii ").\n")

def printUnits (path : CString) (depth : Nat) : Tool Unit := do
  match ← request fun h => queryGetUnits C.P h C.session path (ioMaxUnitsNameLen + 1) with
  | .ok units =>
    if units = [] then pure ()
    else do
      indent depth
      print (ascii "units = '" ++ units ++ ascii "'\n")
  | .error result => complain (ascii "** Error getting units: " ++ C.resultCode result ++
      ascii " (" ++ C.resultTxt result ++ ascii ").\n")

/-- The buffer for the specification has no room for one of the greatest length. -/
def printJsonExtractionSetting (depth : Nat) (path : CString) : Tool Unit := do
  match ← request fun h => adminGetJsonExtraction C.P h path adminMaxJsonExtractorLen with
  | .ok spec => do
    indent depth
    print (ascii "JSON extraction: " ++ spec ++ ascii "\n")
  | .error .notFound => pure ()
  | .error result => do
    complain (ascii "**ERROR: Failed (" ++ C.resultTxt result ++
      ascii ") to get JSON extraction specification for '" ++ path ++ ascii "'.\n")
    throw .exitFailure

/-! ### The parts of `PrintEntry` -/

def printEntryOverride (path : CString) (depth : Nat) : Tool Unit := do
  let hasOverride ← look fun h => adminHasOverride C.P h path
  if hasOverride then do
    indent depth
    print (ascii "** override = ")
    printOverride C path
    print (ascii "\n")

def printEntryDefault (path : CString) (depth : Nat) : Tool Unit := do
  let hasDefault ← look fun h => adminHasDefault C.P h path
  if hasDefault then do
    indent depth
    print (ascii "default = ")
    printDefault C path
    print (ascii "\n")

def printEntrySource (path : CString) (depth : Nat) (entryType : EntryType) : Tool Unit := do
  match ← look fun h => adminGetSource C.P h path (ioMaxResourcePathLen + 1) with
  | .ok srcPath => do
    indent depth
    print (ascii "receiving data from '" ++ srcPath ++ ascii "'")
    if entryType = .input then do
      indent depth
      print (ascii " (which will be ignored because this is an input)")
    print (ascii "\n")
  | .error .notFound => pure ()
  | .error _ => throw .fatal

def printEntrySettings (path : CString) (depth : Nat) : Tool Unit := do
  printJsonExtractionSetting C depth path
  indent depth
  printDoubleSetting C (ascii "minPeriod") (← request fun h => adminGetMinPeriod C.P h path)
  indent depth
  printDoubleSetting C (ascii "lowLimit") (← request fun h => adminGetLowLimit C.P h path)
  indent depth
  printDoubleSetting C (ascii "highLimit") (← request fun h => adminGetHighLimit C.P h path)
  indent depth
  printDoubleSetting C (ascii "changeBy") (← request fun h => adminGetChangeBy C.P h path)
  indent depth
  printTransformSetting (ascii "transform")
    (← request fun h => adminGetTransform C.P C.hubFuel h path)
  indent depth
  let bufferSize ← request fun h => adminGetBufferMaxCount C.P h path
  print (ascii "bufferSize: " ++ JsonGrammar.decimalDigits bufferSize ++ ascii " entries\n")
  indent depth
  let backupPeriod ← request fun h => adminGetBufferBackupPeriod C.P h path
  print (ascii "backupPeriod: " ++ JsonGrammar.decimalDigits backupPeriod ++ ascii " seconds (= " ++
    C.P.formatLf (C.P.div (C.P.ofNat backupPeriod) (C.P.ofNat 60)) ++ ascii " minutes) (= " ++
    C.P.formatLf (C.P.div (C.P.ofNat backupPeriod) (C.P.ofNat 3600)) ++ ascii " hours)\n")

/-- `PrintEntry` -/
def printEntry (path : CString) (depth : Nat) : Tool Unit := do
  match ← look fun h => adminGetEntryType C.P h path with
  | none => do
    complain (ascii "No resource at path '" ++ path ++ ascii "'.\n")
    throw .exitFailure
  | some .nameSpace => do
    indent depth
    print (getEntryName path ++ ascii "\n")
  | some entryType => do
    indent depth
    print (getEntryName path ++ ascii " <" ++ entryTypeStr (some entryType) ++ ascii "> = ")
    printCurrentValue C path
    printDataType C path (depth + 2)
    printUnits C path (depth + 2)
    printEntryOverride C path (depth + 2)
    printEntryDefault C path (depth + 2)
    printEntrySource C path (depth + 2) entryType
    if entryType = .observation then printEntrySettings C path (depth + 2)

mutual

/-- `PrintBranch` -/
def printBranch : Nat → CString → Nat → Tool Unit
  | 0, _, _ => throw .outOfFuel
  | fuel + 1, path, depth => do
    printEntry C path depth
    let first ← look fun h => adminGetFirstChild C.P h path (ioMaxResourcePathLen + 1)
    printChildren fuel first depth

/-- The loop of `PrintBranch` over the children of an entry at this depth. -/
def printChildren : Nat → GetResult CString → Nat → Tool Unit
  | 0, _, _ => throw .outOfFuel
  | _ + 1, .error .overflow, _ => throw .fatal
  | _ + 1, .error _, _ => pure ()
  | fuel + 1, .ok childPath, depth => do
    printBranch fuel childPath (depth + 1)
    let next ← look fun h => adminGetNextSibling C.P h childPath (ioMaxResourcePathLen + 1)
    printChildren fuel next depth

end

end MangOH.AdminTool
