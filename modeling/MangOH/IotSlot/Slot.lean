import Mathlib.Algebra.Group.Nat.Defs
import MangOH.Lib.Ledger
import MangOH.Lib.Machine

/-! An IoT slot: what its driver requests and releases from a probe to a remove. -/
namespace MangOH.IotSlot
open Lib

/-- The interfaces that the platform only switches. -/
inductive Bus
  | sdio
  | adc
  | pcm
  | uart
deriving DecidableEq

inductive Errno
  | acces
  | busy
  | inval
  | noDev
  | range
  /-- of a request that failed -/
  | code (n : Int)
deriving DecidableEq

abbrev Ret := Except Errno Unit

/-- `struct iot_slot_platform_data`. The functions for I2C and SPI are always there. -/
structure PlatformData where
  gpio : Fin 4 → Int
  resetGpio : Int
  cardDetectGpio : Int
  hasRequest : Bus → Bool
  hasRelease : Bus → Bool

inductive Resource
  | gpio (n : Int)
  | i2cAdapter
  | i2cClient (id : Nat)
  | spiMaster
  | spiDevice (id : Nat)
  | bus (bus : Bus)
deriving DecidableEq

def Resource.isGpio : Resource → Bool
  | .gpio _ => true
  | _ => false

inductive EepromInterface
  | gpio
  | i2c
  | spi
  | usb
  | sdio
  | adc
  | pcm
  | clk
  | uart
  | plat
  /-- a type that the driver does not know, or `EEPROM_IF_LAST` -/
  | other
deriving DecidableEq

/-- An entry of `interfaces`. -/
inductive SlotInterface
  | gpio
  | i2c (client : Nat)
  | spi (device : Nat)
  | bus (bus : Bus)
  | clk
  | platform
deriving DecidableEq

inductive Phase
  | unbound
  /-- at the loop over the interfaces of the EEPROM -/
  | enumerating (eeprom : Nat) (ret : Ret) (items : List EepromInterface)
  | bound

structure SlotState where
  phase : Phase := .unbound
  /-- whether `i2c_adapter` is set -/
  i2cAdapter : Bool := false
  interfaces : List SlotInterface := []
  ledger : Ledger Resource := {}
  /-- what is held at each success of `iot_slot_add_gpio` -/
  gpioReports : List (List Resource) := []
  /-- whether the task has called a function that is not there -/
  isDead : Bool := false

/-- What the kernel and the platform answer to the requests for one interface. -/
structure Answers where
  gpio : Fin 4 → Ret
  i2cNewDevice : Option Nat
  requestSpi : Ret
  spiNewDevice : Option Nat
  requestBus : Ret

structure EepromEnv where
  i2cNewDevice : Option Nat
  hasHeader : Bool
  /-- `none` when there is no memory for the list -/
  interfaces : Option (List EepromInterface)

structure ProbeEnv where
  slotAllocated : Bool
  requestReset : Ret
  requestCardDetect : Ret
  requestI2c : Ret
  cardPresent : Bool
  /-- of the card detect gpio, to power the EEPROM -/
  directionOutput : Ret
  eeprom : EepromEnv

/-- `CONFIG_IOT_SLOT_MAX_INTERFACES_PER_CARD` -/
def maxInterfaces : Nat := 10

namespace SlotState

def acquire (s : SlotState) (r : Resource) : SlotState := { s with ledger := s.ledger.acquire r }

def release (s : SlotState) (r : Resource) : SlotState := { s with ledger := s.ledger.release r }

def record (s : SlotState) (interface : SlotInterface) : SlotState :=
  { s with interfaces := s.interfaces ++ [interface] }

end SlotState

/-- `devm_gpio_request_one`: a gpio has one holder. -/
def requestGpio (L : Ledger Resource) (n : Int) : Ret → Ret × Ledger Resource
  | .ok () => if .gpio n ∈ L.held then (.error .busy, L) else (.ok (), L.acquire (.gpio n))
  | .error e => (.error e, L)

/-- The gpio that is requested first. -/
abbrev firstGpio : Fin 4 := 0

section Add

variable (pdata : PlatformData) (answers : Answers)

def addGpioLoop : List (Fin 4) → Ledger Resource → Ret × Ledger Resource
  | [], L => (.ok (), L)
  | i :: is, L =>
    match requestGpio L (pdata.gpio i) (answers.gpio i) with
    | (.ok (), L) => addGpioLoop is L
    | (.error _, L) =>
      -- the return stands in the loop over the gpios before this one
      if 0 < i then (.error .acces, L.release (.gpio (pdata.gpio 0))) else addGpioLoop is L

def addGpio (s : SlotState) : Ret × SlotState :=
  match addGpioLoop pdata answers (List.finRange 4) s.ledger with
  | (.ok (), L) =>
    (.ok (), { s with ledger := L, gpioReports := L.held :: s.gpioReports }.record .gpio)
  | (.error e, L) => (.error e, { s with ledger := L })

def addI2c (s : SlotState) : Ret × SlotState :=
  match answers.i2cNewDevice with
  | none => (.error .inval, s)
  | some client => (.ok (), (s.acquire (.i2cClient client)).record (.i2c client))

def addSpi (s : SlotState) : Ret × SlotState :=
  match answers.requestSpi with
  | .error _ => (.error .noDev, s)
  | .ok () =>
    let s := s.acquire .spiMaster
    match answers.spiNewDevice with
    | none => (.error .noDev, s.release .spiMaster)
    | some device => (.ok (), (s.acquire (.spiDevice device)).record (.spi device))

def addBus (bus : Bus) (s : SlotState) : Ret × SlotState :=
  if pdata.hasRequest bus then
    match answers.requestBus with
    | .error _ => (.error .noDev, s)
    | .ok () => (.ok (), (s.acquire (.bus bus)).record (.bus bus))
  else (.ok (), s.record (.bus bus))

def addSdio : SlotState → Ret × SlotState := addBus pdata answers .sdio

def addAdc : SlotState → Ret × SlotState := addBus pdata answers .adc

def addPcm : SlotState → Ret × SlotState := addBus pdata answers .pcm

def addUart : SlotState → Ret × SlotState := addBus pdata answers .uart

/-- One turn of the loop. An error leaves it; else it goes on with a new `ret`. -/
def enumerateItem (ret : Ret) (item : EepromInterface) (s : SlotState) :
    Except Errno Ret × SlotState :=
  let checked : Ret × SlotState → Except Errno Ret × SlotState := fun p => (p.1.map .ok, p.2)
  if maxInterfaces ≤ s.interfaces.length then (.error .range, s)
  else
    match item with
    | .gpio => checked (addGpio pdata answers s)
    | .i2c => checked (addI2c answers s)
    | .spi => checked (addSpi answers s)
    | .sdio => checked (addSdio pdata answers s)
    | .adc => checked (addAdc pdata answers s)
    | .pcm => checked (addPcm pdata answers s)
    | .uart => checked (addUart pdata answers s)
    -- an interface for USB is recorded as a clock too
    | .usb | .clk => (.ok ret, s.record .clk)
    | .plat => (.ok ret, s.record .platform)
    | .other => (.ok ret, s)

end Add

section Release

variable (pdata : PlatformData)

/-- The gpios of the slot. -/
def PlatformData.gpios : List Resource := (List.finRange 4).map fun i => .gpio (pdata.gpio i)

def releaseInterface (s : SlotState) : SlotInterface → SlotState
  | .gpio => { s with ledger := s.ledger.releaseAll pdata.gpios }
  | .i2c client => s.release (.i2cClient client)
  | .spi device => (s.release (.spiDevice device)).release .spiMaster
  | .bus bus =>
    if pdata.hasRelease bus then s.release (.bus bus)
    -- the function is looked for on the UART only
    else if bus = .uart then s else { s with isDead := true }
  | .clk | .platform => s

def releaseInterfaces : List SlotInterface → SlotState → SlotState
  | [], s => s
  | i :: is, s =>
    let s := releaseInterface pdata s i
    if s.isDead then s else releaseInterfaces is s

def releaseResources (s : SlotState) : SlotState :=
  let s := releaseInterfaces pdata s.interfaces s
  if s.isDead then s
  else
    let s := if s.i2cAdapter then { s.release .i2cAdapter with i2cAdapter := false } else s
    (s.release (.gpio pdata.cardDetectGpio)).release (.gpio pdata.resetGpio)

/-- The driver core lets go of the device: it releases the gpios that are still held. -/
def unbind (s : SlotState) : SlotState :=
  { s with phase := .unbound, ledger := s.ledger.releaseAll (s.ledger.held.filter Resource.isGpio) }

/-- `iot_slot_release_resources` and what follows it, unless it kills the task. -/
def releaseAndThen (s : SlotState) (rest : SlotState → SlotState) : SlotState :=
  let s := releaseResources pdata s
  if s.isDead then s else rest s

end Release

section Probe

variable (pdata : PlatformData)

def requestEssentialResources (env : ProbeEnv) (s : SlotState) : Ret × SlotState :=
  match requestGpio s.ledger pdata.resetGpio env.requestReset with
  | (.error e, L) => (.error e, releaseResources pdata { s with ledger := L })
  | (.ok (), L) =>
    match requestGpio L pdata.cardDetectGpio env.requestCardDetect with
    | (.error e, L) => (.error e, releaseResources pdata { s with ledger := L })
    | (.ok (), L) =>
      match env.requestI2c with
      | .error e => (.error e, releaseResources pdata { s with ledger := L })
      | .ok () => (.ok (), { s with ledger := L.acquire .i2cAdapter, i2cAdapter := true })

/-- Without an interface the EEPROM stays registered. -/
def eepromLoad (env : EepromEnv) (s : SlotState) :
    Option (Nat × List EepromInterface) × SlotState :=
  if s.i2cAdapter then
    match env.i2cNewDevice with
    | none => (none, s)
    | some client =>
      let s := s.acquire (.i2cClient client)
      if env.hasHeader then
        match env.interfaces with
        | some (item :: items) => (some (client, item :: items), s)
        | _ => (none, s)
      else (none, s.release (.i2cClient client))
  else (none, s)

def eepromUnload (client : Nat) (s : SlotState) : SlotState := s.release (.i2cClient client)

/-- The end of `iot_slot_probe`. -/
def endProbe : Ret → SlotState → SlotState
  | .ok (), s => { s with phase := .bound }
  | .error _, s => unbind s

/-- `iot_slot_enumerate` up to its loop. -/
def enumerate (env : ProbeEnv) (s : SlotState) : SlotState :=
  if env.cardPresent then
    match eepromLoad env.eeprom s with
    | (some (client, items), s) => { s with phase := .enumerating client env.directionOutput items }
    | (none, s) => endProbe env.directionOutput s
  else endProbe (.ok ()) s

def probe (env : ProbeEnv) (s : SlotState) : SlotState :=
  if env.slotAllocated then
    match requestEssentialResources pdata env { s with i2cAdapter := false, interfaces := [] } with
    | (.ok (), s) => enumerate env s
    | (.error e, s) => endProbe (.error e) s
  else s

end Probe

inductive SlotEvent
  | probe (env : ProbeEnv)
  | item (answers : Answers)
  | enumerated
  | remove

def slotStep (pdata : PlatformData) (s : SlotState) (e : SlotEvent) : Option SlotState :=
  if s.isDead then none
  else
    match e, s.phase with
    | .probe env, .unbound => some (probe pdata env s)
    -- a slot is created once
    | .probe _, .bound => some s
    | .item answers, .enumerating client ret (item :: items) =>
      match enumerateItem pdata answers ret item s with
      | (.ok ret, s) => some { s with phase := .enumerating client ret items }
      | (.error e, s) =>
        some (releaseAndThen pdata s fun s => endProbe (.error e) (eepromUnload client s))
    | .enumerated, .enumerating client ret [] => some (endProbe ret (eepromUnload client s))
    | .remove, .bound => some (releaseAndThen pdata s unbind)
    | _, _ => none

def slotMachine (pdata : PlatformData) : Machine SlotState SlotEvent where
  Init s := s = {}
  Step s e t := slotStep pdata s e = some t

end MangOH.IotSlot
