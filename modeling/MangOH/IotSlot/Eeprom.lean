import MangOH.IotSlot.Slot

/-! The EEPROM of a card: the records behind its header, and the slot that goes through them. -/
namespace MangOH.IotSlot
open Lib

/-- What a kernel must not do. -/
inductive Fault
  | nullPointer
  /-- `BUG()` -/
  | bug
  | outsideImage
  | outsideTable
  /-- more rounds of a loop than were allowed for -/
  | endless
deriving DecidableEq

/-- `IOT_EEPROM_SIZE` -/
def eepromSize : Nat := 4096

/-- `EEPROM_1V0_INTERFACE_OFFSET` -/
def interfaceOffset : Nat := 192

/-- The size of an `eeprom_if_1v0`. -/
def recordSize : Nat := 64

/-- `EEPROM_VERSION(1, 0)` -/
def version10 : Nat := 0x100

/-- `EEPROM_IF_LAST` -/
def ifLast : UInt8 := 0xff

/-- `IRQ_GPIO_UNUSED` -/
def irqGpioUnused : UInt8 := 0xff

/-- The `buffer` of a `struct eeprom_map`. -/
structure Image where
  bytes : List UInt8
  length_bytes : bytes.length = eepromSize

namespace Image

variable (image : Image)

def read (offset : Nat) : Except Fault UInt8 :=
  match image.bytes[offset]? with
  | some byte => .ok byte
  | none => .error .outsideImage

/-- Whether `to_eeprom_buffer` finds the header. -/
def hasHeader : Bool := image.bytes[0]? == some 0xaa && image.bytes[1]? == some 0x55

/-- `eeprom_version` -/
def version : Except Fault Nat :=
  if image.hasHeader then do
    let high ← image.read 2
    let low ← image.read 3
    return 256 * high.toNat + low.toNat
  else .error .nullPointer

/-- A byte of a record. The layout is known for one version. -/
def field (record offset : Nat) : Except Fault UInt8 := do
  if (← image.version) = version10 then
    image.read (interfaceOffset + recordSize * record + offset)
  else .error .bug

/-- `eeprom_if_type` -/
def ifType (record : Nat) : Except Fault UInt8 := image.field record 0

/-- `eeprom_if_first`. A pointer to a record is its number. -/
def ifFirst : Except Fault (Option Nat) := do
  return if (← image.ifType 0) = ifLast then none else some 0

/-- `eeprom_if_next` -/
def ifNext (prev : Nat) : Except Fault (Option Nat) := do
  return if (← image.ifType prev) = ifLast then none else some (prev + 1)

/-- The loop of `eeprom_load_interfaces`; `kzalloc` says for which entries there is memory. -/
def loadLoop (kzalloc : Nat → Bool) :
    Nat → Option Nat → List Nat → Except Fault (Int × List Nat)
  | _, none, list => .ok (list.length, list)
  | 0, some _, _ => .error .endless
  | rounds + 1, some record, list =>
    if kzalloc list.length then do
      loadLoop kzalloc rounds (← image.ifNext record) (list ++ [record])
    else .ok (-1, [])

/-- `eeprom_load_interfaces`: what it returns, and the list of the records. -/
def loadInterfaces (kzalloc : Nat → Bool) (rounds : Nat) : Except Fault (Int × List Nat) := do
  image.loadLoop kzalloc rounds (← image.ifFirst) []

/-- `eeprom_if_i2c_irq_gpio` -/
def i2cIrqGpio (record : Nat) : Except Fault UInt8 := do
  if (← image.ifType record) = 1 then image.field record 2 else .error .bug

/-- `eeprom_if_spi_irq_gpio` -/
def spiIrqGpio (record : Nat) : Except Fault UInt8 := do
  if (← image.ifType record) = 2 then image.field record 1 else .error .bug

end Image

/-- The interface that a type stands for. -/
def eepromInterface (type : UInt8) : EepromInterface :=
  [.gpio, .i2c, .spi, .usb, .sdio, .adc, .pcm, .clk, .uart, .plat].getD type.toNat .other

section Enumeration

variable (pdata : PlatformData) (image : Image)

/-- The gpio of an interrupt. -/
def irqGpio (index : UInt8) : Except Fault (Option Int) :=
  if index = irqGpioUnused then .ok none
  else if h : index.toNat < 4 then .ok (some (pdata.gpio ⟨index.toNat, h⟩))
  else .error .outsideTable

/-- What is looked up for a new device before it is asked for. -/
def lookUp (answers : Answers) (record : Nat) : EepromInterface → Except Fault Unit
  | .i2c => do
    let _ ← irqGpio pdata (← image.i2cIrqGpio record)
  | .spi =>
    match answers.requestSpi with
    | .error _ => .ok ()
    | .ok () => do
      let _ ← irqGpio pdata (← image.spiIrqGpio record)
  | _ => .ok ()

/-- One turn of the loop of `iot_slot_enumerate`, at a record. -/
def enumerateRecord (answers : Answers) (ret : Ret) (record : Nat) (s : SlotState) :
    Except Fault (Except Errno Ret × SlotState) :=
  if maxInterfaces ≤ s.interfaces.length then .ok (.error .range, s)
  else do
    let interface := eepromInterface (← image.ifType record)
    lookUp pdata image answers record interface
    return enumerateItem pdata answers ret interface s

/-- The loop of `iot_slot_enumerate`. -/
def enumerateRecords (answers : Nat → Answers) :
    List Nat → Ret → SlotState → Except Fault (Except Errno Ret × SlotState)
  | [], ret, s => .ok (.ok ret, s)
  | record :: records, ret, s => do
    match ← enumerateRecord pdata image (answers record) ret record s with
    | (.ok ret, s) => enumerateRecords answers records ret s
    | (.error e, s) => .ok (.error e, s)

end Enumeration

end MangOH.IotSlot
