import Mathlib.Algebra.Group.Nat.Defs
import Mathlib.Data.List.TakeWhile
import Mathlib.Data.Nat.Notation

/-! Basic data of the Data Hub: C strings, doubles, data samples and faults. -/
namespace MangOH.DataHub

/-- The bytes of a C string, without its terminator. -/
abbrev CString := List UInt8

/-- The contents of a file. -/
abbrev Bytes := List UInt8

def ascii (s : String) : CString := s.toList.map fun c => UInt8.ofNat c.toNat

/-- What a C string buffer denotes: its bytes up to the first terminator. -/
def cString (buff : Bytes) : CString := buff.takeWhile (· ≠ 0)

theorem zero_notMem_cString (buff : Bytes) : 0 ∉ cString buff := by
  intro h
  simpa using List.mem_takeWhile_imp h

theorem cString_of_noNul {buff : Bytes} (h : 0 ∉ buff) : cString buff = buff := by
  refine List.takeWhile_eq_self_iff.mpr fun b hb => ?_
  have hne : b ≠ 0 := fun h0 => h (h0 ▸ hb)
  simpa using hne

def ioMaxResourcePathLen : Nat := 79
def ioMaxUnitsNameLen : Nat := 23
def ioMaxStringValueLen : Nat := 50000
def adminMaxJsonExtractorLen : Nat := 63
def hubMaxStringBytes : Nat := ioMaxStringValueLen + 1
def hubMaxUnitsBytes : Nat := ioMaxUnitsNameLen + 1
def readOpBuffBytes : Nat := ioMaxStringValueLen + 48

/-- An IEEE 754 double, kept as its bits. Arithmetic is left to the platform. -/
structure Double where
  bits : BitVec 64
deriving DecidableEq

namespace Double

def magnitude (d : Double) : Nat := d.bits.toNat % 2 ^ 63

def isNegative (d : Double) : Bool := decide (2 ^ 63 ≤ d.bits.toNat)

/-- Signed magnitude: orders all doubles that are numbers, and identifies the two zeros. -/
def key (d : Double) : Int := if d.isNegative then -(d.magnitude : Int) else d.magnitude

def isNaN (d : Double) : Bool := decide (0x7ff0000000000000 < d.magnitude)

/-- The comparison operators of C: false as soon as one side is not a number. -/
def lt (a b : Double) : Bool := !a.isNaN && !b.isNaN && decide (a.key < b.key)
def le (a b : Double) : Bool := !a.isNaN && !b.isNaN && decide (a.key ≤ b.key)
def eq (a b : Double) : Bool := !a.isNaN && !b.isNaN && decide (a.key = b.key)

def fabs (d : Double) : Double := ⟨BitVec.ofNat 64 d.magnitude⟩

def nan : Double := ⟨0x7ff8000000000000⟩
def zero : Double := ⟨0⟩
def one : Double := ⟨0x3ff0000000000000⟩
def thousand : Double := ⟨0x408f400000000000⟩
/-- `THIRTY_YEARS`, 946684800.0 seconds. -/
def thirtyYears : Double := ⟨0x41cc36a1c0000000⟩

theorem not_lt_iff {a b : Double} (ha : a.isNaN = false) (hb : b.isNaN = false) :
    a.lt b = false ↔ b.key ≤ a.key := by
  simp [lt, ha, hb]

theorem lt_iff {a b : Double} (ha : a.isNaN = false) (hb : b.isNaN = false) :
    a.lt b = true ↔ a.key < b.key := by
  simp [lt, ha, hb]

@[simp] theorem isNaN_nan : nan.isNaN = true := by decide

@[simp] theorem isNaN_zero : zero.isNaN = false := by decide

end Double

/-- `io_DataType_t` -/
inductive DataType
  | trigger
  | boolean
  | numeric
  | string
  | json
deriving DecidableEq, Repr

/-- `admin_EntryType_t`. No entry of the tree ever has `ADMIN_ENTRY_TYPE_NONE`. -/
inductive EntryType
  | nameSpace
  | placeholder
  | input
  | output
  | observation
deriving DecidableEq, Repr

/-- The types of resources whose data type the creating app has fixed. -/
def EntryType.isIo : EntryType → Bool
  | .input | .output => true
  | _ => false

/-- `le_result_t`, as far as the hub returns it. -/
inductive LeResult
  | ok
  | notFound
  | duplicate
  | badParameter
  | overflow
  | fault
  | commError
deriving DecidableEq, Repr

/-- How a run of the C program can go wrong. -/
inductive Fault
  | useAfterFree
  | nullDeref
  /-- `CONTAINER_OF` applied to a resource of another class -/
  | badDowncast
  /-- a sample's payload is read at a type it was not created with -/
  | typeConfusion
  /-- `LE_FATAL` or a failed `LE_ASSERT` -/
  | fatal
  /-- one of the assertions of `EntryDestructor` fails -/
  | entryAssertion
  /-- `res_Destruct` asserts that the resource has no source and no destinations -/
  | routeAssertion
  /-- the recursion is deeper than the fuel it was given -/
  | outOfFuel
deriving DecidableEq, Repr

/-- Text that fits a data sample. -/
structure Text where
  bytes : CString
  noNul : 0 ∉ bytes
  bounded : bytes.length ≤ ioMaxStringValueLen
deriving DecidableEq

theorem Text.ext_bytes {a b : Text} (h : a.bytes = b.bytes) : a = b := by
  cases a; cases b; simp_all

/-- The payload of a data sample, tagged with the type it was created with. -/
inductive Value
  | trigger
  | boolean (b : Bool)
  | numeric (d : Double)
  | string (t : Text)
  | json (t : Text)
deriving DecidableEq

def Value.type : Value → DataType
  | .trigger => .trigger
  | .boolean _ => .boolean
  | .numeric _ => .numeric
  | .string _ => .string
  | .json _ => .json

/-- `DataSample_t`. No function of the hub reads the tag of `value` or the last two fields: `via`
remembers the units string carried by the push that delivered the sample ([] = none), and `hops`
counts how often it has been delivered. A sample set as a default or an override counts as
delivered. -/
structure DataSample where
  timestamp : Double
  value : Value
  via : CString
  hops : Nat := 0
deriving DecidableEq

def DataSample.type (s : DataSample) : DataType := s.value.type

/-- `BufferEntry_t`. The `id` stands for the object's address; ids are never used again. -/
structure BufferEntry where
  id : Nat
  sampleRef : DataSample
deriving DecidableEq

/-- `json_DataType_t` -/
inductive JsonType
  | null
  | boolean
  | number
  | string
  | object
  | array
deriving DecidableEq, Repr

/-- A value as an app or the administrator hands it to one of the push or set functions. -/
inductive Argument
  | trigger
  | boolean (b : Bool)
  | numeric (d : Double)
  | string (value : CString)
  | json (value : CString)
deriving DecidableEq

def Argument.type : Argument → DataType
  | .trigger => .trigger
  | .boolean _ => .boolean
  | .numeric _ => .numeric
  | .string _ => .string
  | .json _ => .json

/-- The clocks and the file system, as the hub finds them when it asks. -/
structure Environment where
  /-- the absolute time, as `usec / 1000000 + sec` computes it -/
  now : Double
  relSec : Nat
  relUsec : Nat
  /-- the calls into the file system succeed -/
  fileSystemUp : Bool

/-- `GetRelativeTimeMs` -/
def getRelativeTimeMs (env : Environment) : Nat :=
  (env.relSec * 1000 + env.relUsec / 1000) % 2 ^ 32

end MangOH.DataHub
