import MangOH.Mt7697q.BitFields

/-! The registers of the MT7697 that the driver reaches its memory through, two bytes a transfer. -/
namespace MangOH.Mt7697io
open Interaction Mt7697q

/-- The four bytes of a transfer. -/
structure Frame where
  cmd : UInt8
  reg : UInt8
  high : UInt8
  low : UInt8
deriving DecidableEq, Repr

/-- What the driver asks of the SPI core, of `mt7697spi_hw_ops`. -/
inductive Transfer
  | write (txBuffer : Frame)
  | writeThenRead (spiBuffer : Frame)
deriving DecidableEq, Repr

def TransferAnswer : Transfer → Type
  | .write _ => Except Errno Unit
  | .writeThenRead _ => Except Errno Frame

/-- A function of the driver over the bus. It has no result where it polls longer than it is run. -/
abbrev Bus (α : Type) := Program Transfer TransferAnswer (Option (Except Errno α))

variable {α β γ : Type}

/-- Go on with the result, unless a transfer has failed. -/
def Bus.andThen (x : Bus α) (f : α → Bus β) : Bus β :=
  x.bind fun
    | none => .done none
    | some (.error e) => .done (some (.error e))
    | some (.ok a) => f a

def Bus.ok (a : α) : Bus α := .done (some (.ok a))

theorem Bus.andThen_assoc (x : Bus α) (f : α → Bus β) (g : β → Bus γ) :
    (x.andThen f).andThen g = x.andThen fun a => (f a).andThen g := by
  unfold Bus.andThen
  rw [Program.bind_assoc]
  congr 1
  funext r
  rcases r with _ | _ | a <;> rfl

theorem Bus.andThen_ok (x : Bus α) : x.andThen Bus.ok = x := by
  unfold Bus.andThen
  induction x with
  | done r => rcases r with _ | _ | a <;> rfl
  | ask o next ih => exact congrArg (Program.ask o) (funext ih)

def slaveBufferAddress : UInt32 := 0x20000200

def cmdWrite : UInt8 := 0x80
def cmdRead : UInt8 := 0x00

def slaveRegReadDataLow : UInt8 := 0x00
def slaveRegReadDataHigh : UInt8 := 0x02
def slaveRegWriteDataLow : UInt8 := 0x04
def slaveRegWriteDataHigh : UInt8 := 0x06
def slaveRegBusAddrLow : UInt8 := 0x08
def slaveRegBusAddrHigh : UInt8 := 0x0A
def slaveRegCommand : UInt8 := 0x0C
def slaveRegStatus : UInt8 := 0x10
def slaveRegIrq : UInt8 := 0x14
def slaveRegMailboxS2M : UInt8 := 0x18
def slaveRegMailboxM2S : UInt8 := 0x1C

def commandRegBusSizeOffset : Nat := 1
def commandRegBusSizeWidth : Nat := 2
def commandRegBusSizeValWord : Nat := 2
def commandRegRwOffset : Nat := 0
def commandRegRwWidth : Nat := 1
def commandRegRwValRead : Nat := 0
def commandRegRwValWrite : Nat := 1
def irqRegIrqStatusOffset : Nat := 0
def irqRegIrqStatusWidth : Nat := 1
def irqRegIrqStatusValActive : Nat := 1
def s2mMailboxRegMailboxOffset : Nat := 0
def s2mMailboxRegMailboxWidth : Nat := 6
def m2sMailboxRegMailboxOffset : Nat := 0
def m2sMailboxRegMailboxWidth : Nat := 7

/-- `BF_DEFINE` of small values, where no bit is shifted out. -/
def bfDefine (v o w : Nat) : Nat := (v &&& (2 ^ (w + 1) - 1)) <<< o

/-- The halves of a `u32`, and the `u32` of two halves. -/
def lowHalf (value : UInt32) : UInt16 := .ofNat (bfGet value.toNat 0 16)
def highHalf (value : UInt32) : UInt16 := .ofNat (bfGet value.toNat 16 16)
def ofHalves (low high : UInt16) : UInt32 := low.toUInt32 ||| high.toUInt32 <<< 16

/-- The bytes of a `u16`, and the `u16` of two bytes. -/
def lowByte (value : UInt16) : UInt8 := (value &&& 0xFF).toUInt8
def highByte (value : UInt16) : UInt8 := (value >>> 8 &&& 0xFF).toUInt8
def ofBytes (high low : UInt8) : UInt16 := high.toUInt16 <<< 8 ||| low.toUInt16

def write16 (reg : UInt8) (value : UInt16) : Bus Unit :=
  .ask (.write ⟨cmdWrite, reg, highByte value, lowByte value⟩) fun ret => .done (some ret)

def write32 (reg : UInt8) (value : UInt32) : Bus Unit :=
  (write16 reg (lowHalf value)).andThen fun _ => write16 (reg + 2) (highHalf value)

def read16 (reg : UInt8) : Bus UInt16 :=
  .ask (.writeThenRead ⟨cmdRead, reg, 0, 0⟩) fun
    | .error e => .done (some (.error e))
    | .ok spiBuffer => Bus.ok (ofBytes spiBuffer.high spiBuffer.low)

def read32 (reg : UInt8) : Bus UInt32 :=
  (read16 reg).andThen fun low =>
    (read16 (reg + 2)).andThen fun high => .ok (ofHalves low high)

def chkSlaveBusy : Bus Bool :=
  (read16 slaveRegStatus).andThen fun value => .ok (ioBusy value)

/-- `mt7697io_slave_wait`, for at most so many polls. -/
def slaveWait : Nat → Bus Unit
  | 0 => .done none
  | polls + 1 => chkSlaveBusy.andThen fun slaveBusy =>
    if slaveBusy then slaveWait polls else .ok ()

def wrM2sMbx (bits : UInt8) : Bus Unit :=
  write16 slaveRegMailboxM2S
    (.ofNat (bfDefine bits.toNat m2sMailboxRegMailboxOffset m2sMailboxRegMailboxWidth))

def getS2mMbox (value : UInt16) : UInt8 :=
  .ofNat (bfGet value.toNat s2mMailboxRegMailboxOffset s2mMailboxRegMailboxWidth)

def setS2mMbox (value : UInt8) : UInt16 :=
  .ofNat (bfDefine value.toNat s2mMailboxRegMailboxOffset s2mMailboxRegMailboxWidth)

def rdS2mMbx : Bus UInt8 :=
  (read16 slaveRegMailboxS2M).andThen fun value => .ok (getS2mMbox value)

def clrS2mMbx (s2mMbx : UInt8) : Bus Unit := write16 slaveRegMailboxS2M (setS2mMbox s2mMbx)

/-- The command for one word. -/
def command (rw : Nat) : UInt16 :=
  .ofNat (bfDefine commandRegBusSizeValWord commandRegBusSizeOffset commandRegBusSizeWidth |||
    bfDefine rw commandRegRwOffset commandRegRwWidth)

variable (polls : Nat)

/-- The loop of `mt7697io_wr`. -/
def wrWords : List Word → Bus Unit
  | [] => .ok ()
  | w :: data => (write32 slaveRegWriteDataLow w).andThen fun _ =>
    (write16 slaveRegCommand (command commandRegRwValWrite)).andThen fun _ =>
    (slaveWait polls).andThen fun _ => wrWords data

def wr (addr : UInt32) (data : List Word) : Bus Unit :=
  (write32 slaveRegBusAddrLow addr).andThen fun _ => wrWords polls data

/-- The loop of `mt7697io_rd`. -/
def rdWords : Nat → Bus (List Word)
  | 0 => .ok []
  | num + 1 => (write16 slaveRegCommand (command commandRegRwValRead)).andThen fun _ =>
    (slaveWait polls).andThen fun _ =>
    (read32 slaveRegReadDataLow).andThen fun w =>
    (rdWords num).andThen fun data => .ok (w :: data)

def rd (addr : UInt32) (num : Nat) : Bus (List Word) :=
  (write32 slaveRegBusAddrLow addr).andThen fun _ => rdWords polls num

def triggerIntr : Bus Unit :=
  write16 slaveRegIrq
    (.ofNat (bfDefine irqRegIrqStatusValActive irqRegIrqStatusOffset irqRegIrqStatusWidth))

/-! ### Halves and bytes -/

theorem toNat_ofHalves (low high : UInt16) :
    (ofHalves low high).toNat = high.toNat * 2 ^ 16 + low.toNat := by
  have hlow := low.toNat_lt
  have hhigh := high.toNat_lt
  rw [ofHalves, UInt32.toNat_or, UInt32.toNat_shiftLeft, UInt16.toNat_toUInt32,
    UInt16.toNat_toUInt32]
  rw [show (16 : UInt32).toNat % 32 = 16 from rfl, Nat.shiftLeft_eq,
    Nat.mod_eq_of_lt (by omega), Nat.or_comm, ← Nat.shiftLeft_eq,
    ← Nat.shiftLeft_add_eq_or_of_lt (by omega), Nat.shiftLeft_eq]

theorem toNat_lowHalf (value : UInt32) : (lowHalf value).toNat = value.toNat % 2 ^ 16 := by
  rw [lowHalf, bfGet, UInt16.toNat_ofNat', Nat.shiftRight_zero, Nat.and_two_pow_sub_one_eq_mod]
  omega

theorem toNat_highHalf (value : UInt32) : (highHalf value).toNat = value.toNat / 2 ^ 16 := by
  have hlt := value.toNat_lt
  rw [highHalf, bfGet, UInt16.toNat_ofNat', Nat.and_two_pow_sub_one_eq_mod,
    Nat.shiftRight_eq_div_pow]
  omega

theorem lowHalf_ofHalves (low high : UInt16) : lowHalf (ofHalves low high) = low := by
  have hlt := low.toNat_lt
  rw [← UInt16.toNat_inj, toNat_lowHalf, toNat_ofHalves]
  omega

theorem ofHalves_halves (value : UInt32) : ofHalves (lowHalf value) (highHalf value) = value := by
  rw [← UInt32.toNat_inj, toNat_ofHalves, toNat_lowHalf, toNat_highHalf]
  omega

theorem ofBytes_bytes (value : UInt16) : ofBytes (highByte value) (lowByte value) = value := by
  have hlt := value.toNat_lt
  have hlow : (lowByte value).toNat = value.toNat % 2 ^ 8 := by
    rw [lowByte, UInt16.toNat_toUInt8, UInt16.toNat_and]
    rw [show (0xFF : UInt16).toNat = 2 ^ 8 - 1 from rfl, Nat.and_two_pow_sub_one_eq_mod]
    omega
  have hhigh : (highByte value).toNat = value.toNat / 2 ^ 8 := by
    rw [highByte, UInt16.toNat_toUInt8, UInt16.toNat_and, UInt16.toNat_shiftRight]
    rw [show (0xFF : UInt16).toNat = 2 ^ 8 - 1 from rfl, Nat.and_two_pow_sub_one_eq_mod,
      show (8 : UInt16).toNat % 16 = 8 from rfl, Nat.shiftRight_eq_div_pow]
    omega
  rw [← UInt16.toNat_inj, ofBytes, UInt16.toNat_or, UInt16.toNat_shiftLeft, UInt8.toNat_toUInt16,
    UInt8.toNat_toUInt16, hlow, hhigh]
  rw [show (8 : UInt16).toNat % 16 = 8 from rfl, Nat.shiftLeft_eq, Nat.mod_eq_of_lt (by omega),
    ← Nat.shiftLeft_eq, ← Nat.shiftLeft_add_eq_or_of_lt (by omega), Nat.shiftLeft_eq]
  omega

end MangOH.Mt7697io
