import MangOH.Lib.Refinement
import MangOH.Mt7697q.OnBus
import MangOH.Mt7697q.RingSafety

/-! The slave's memory with several queues in it, behind the registers that they share. -/
namespace MangOH.Mt7697q
open Interaction Relation Mt7697io OnBus

/-- The queues in use: their channels, and control words that never change. No two of them share
memory. -/
structure MemoryMap (ι : Type) where
  ch : ι → Fin numQueues
  dir : ι → Dir
  flags : ι → UInt32
  baseAddr : ι → UInt32
  ch_injective : Function.Injective ch
  fits : ∀ i, (baseAddr i).toNat + 4 * numWords (flags i) ≤ 2 ^ 32
  clear : ∀ i, (baseAddr i).toNat + 4 * numWords (flags i) ≤ slaveBufferAddress.toNat ∨
    slaveBufferAddress.toNat + numQueues * sizeofData ≤ (baseAddr i).toNat
  apart : ∀ i j, i ≠ j → (baseAddr i).toNat + 4 * numWords (flags i) ≤ (baseAddr j).toNat ∨
    (baseAddr j).toNat + 4 * numWords (flags j) ≤ (baseAddr i).toNat

variable {ι : Type}

def MemoryMap.size (m : MemoryMap ι) (i : ι) : Nat := numWords (m.flags i)

def MemoryMap.rdAddr (m : MemoryMap ι) (i : ι) : UInt32 := dataAddr (m.ch i) offsetofRdOffset

def MemoryMap.wrAddr (m : MemoryMap ι) (i : ι) : UInt32 := dataAddr (m.ch i) offsetofWrOffset

def MemoryMap.slotAddr (m : MemoryMap ι) (i : ι) (offset : Nat) : UInt32 :=
  wordAddr (m.baseAddr i) offset

def MemoryMap.InRing (m : MemoryMap ι) (i : ι) (addr : UInt32) : Prop :=
  (m.baseAddr i).toNat ≤ addr.toNat ∧ addr.toNat < (m.baseAddr i).toNat + 4 * m.size i

/-- The memory of a queue: its control words and its ring. -/
def MemoryMap.Owns (m : MemoryMap ι) (i : ι) (addr : UInt32) : Prop :=
  (dataAddr (m.ch i) 0).toNat ≤ addr.toNat ∧ addr.toNat < (dataAddr (m.ch i) 0).toNat + sizeofData ∨
  m.InRing i addr

instance (m : MemoryMap ι) (i : ι) (addr : UInt32) : Decidable (m.InRing i addr) :=
  inferInstanceAs (Decidable (_ ∧ _))

/-- The offset after this one. -/
def MemoryMap.next (m : MemoryMap ι) (i : ι) (offset : Nat) : Nat :=
  if offset + 1 = m.size i then 0 else offset + 1

inductive Rw
  | read
  | write
deriving DecidableEq, Repr

/-- The registers of a command: the access it has yet to make, after so many polls, and the polls
that still find it busy. -/
structure Registers where
  readData : UInt32
  writeData : UInt32
  busAddr : UInt32
  pending : Option (Rw × Nat)
  busy : Nat
deriving DecidableEq, Repr

def Registers.Ready (r : Registers) : Prop := r.pending = none ∧ r.busy = 0

/-- The slave, the host's copies of the control words, and the words that went into each queue and
came out. -/
structure Board (ι : Type) where
  mem : UInt32 → Word
  regs : Registers
  /-- the polls before the access of the next command, and those after it -/
  pace : Nat × Nat
  s2mMbx : UInt16
  /-- a register of a command was used while the slave was busy with it -/
  misused : Bool
  qs : ι → QueueData
  slave : ι → Offsets
  written : ι → List Word
  received : ι → List Word
  sent : ι → List Word

variable {m : MemoryMap ι} {t u : Board ι} {i j : ι}

/-! ### What the slave does with a transfer -/

/-- The access of a command; the bus address advances with it. -/
def Board.perform (m : MemoryMap ι) (t : Board ι) : Rw → Board ι
  | .read => { t with
      regs := { t.regs with
        readData := t.mem t.regs.busAddr, busAddr := t.regs.busAddr + 4, pending := none } }
  | .write => { t with
      mem := Function.update t.mem t.regs.busAddr t.regs.writeData
      regs := { t.regs with busAddr := t.regs.busAddr + 4, pending := none }
      written := fun i =>
        if m.InRing i t.regs.busAddr then t.written i ++ [t.regs.writeData] else t.written i }

/-- The access is made in its time. -/
def Board.advance (m : MemoryMap ι) (t : Board ι) : Board ι :=
  match t.regs.pending with
  | none => t
  | some (rw, 0) => t.perform m rw
  | some (rw, n + 1) => { t with regs.pending := some (rw, n) }

/-- A command, for one word. -/
def Board.start (m : MemoryMap ι) (t : Board ι) (rw : Rw) : Board ι :=
  Board.advance m
    { t with regs := { t.regs with pending := some (rw, t.pace.1), busy := t.pace.1 + t.pace.2 } }

/-- A look at the status. -/
def Board.poll (m : MemoryMap ι) (t : Board ι) : Board ι × UInt16 :=
  match t.regs.busy with
  | 0 => (t, 0)
  | n + 1 => (Board.advance m { t with regs.busy := n }, 1)

/-- The registers up to the command are those of the command. -/
def Board.touch (t : Board ι) (reg : UInt8) : Board ι :=
  if t.regs.busy ≠ 0 ∧ reg.toNat ≤ slaveRegCommand.toNat then { t with misused := true } else t

def Board.write (m : MemoryMap ι) (t : Board ι) (reg : UInt8) (value : UInt16) : Board ι :=
  let r := t.regs
  if reg = slaveRegWriteDataLow then
    { t with regs.writeData := ofHalves value (highHalf r.writeData) }
  else if reg = slaveRegWriteDataHigh then
    { t with regs.writeData := ofHalves (lowHalf r.writeData) value }
  else if reg = slaveRegBusAddrLow then
    { t with regs.busAddr := ofHalves value (highHalf r.busAddr) }
  else if reg = slaveRegBusAddrHigh then
    { t with regs.busAddr := ofHalves (lowHalf r.busAddr) value }
  else if reg = slaveRegCommand then
    if value = command commandRegRwValWrite then t.start m .write
    else if value = command commandRegRwValRead then t.start m .read
    else t
  else if reg = slaveRegMailboxS2M then { t with s2mMbx := t.s2mMbx &&& ~~~value }
  else t

def Board.read (m : MemoryMap ι) (t : Board ι) (reg : UInt8) : Board ι × UInt16 :=
  if reg = slaveRegReadDataLow then (t, lowHalf t.regs.readData)
  else if reg = slaveRegReadDataHigh then (t, highHalf t.regs.readData)
  else if reg = slaveRegStatus then t.poll m
  else if reg = slaveRegMailboxS2M then (t, t.s2mMbx)
  else (t, 0)

/-- Transfers succeed. -/
def serveBus (m : MemoryMap ι) (t : Board ι) : (o : Transfer) → Board ι × TransferAnswer o
  | .write f => ((t.touch f.reg).write m f.reg (ofBytes f.high f.low), .ok ())
  | .writeThenRead f =>
    let r := (t.touch f.reg).read m f.reg
    (r.1, .ok ⟨0, 0, highByte r.2, lowByte r.2⟩)

/-! ### What the slave does by itself -/

variable [DecidableEq ι]

def Board.setSlave (t : Board ι) (i : ι) (offsets : Offsets) : Board ι :=
  { t with slave := Function.update t.slave i offsets }

def Board.poke (t : Board ι) (addr : UInt32) (w : Word) : Board ι :=
  { t with mem := Function.update t.mem addr w }

/-- A word comes out of a queue. -/
def Board.receive (t : Board ι) (i : ι) (w : Word) : Board ι :=
  { t with received := Function.update t.received i (t.received i ++ [w]) }

/-- A word goes into a queue. -/
def Board.record (t : Board ι) (i : ι) (w : Word) : Board ι :=
  { t with written := Function.update t.written i (t.written i ++ [w]) }

/-- At its end of each queue the slave reads or writes words and looks at and gives offsets when it
likes. It uses the rest of its memory, and the next command may take any time up to `polls`. -/
inductive SlaveActs (m : MemoryMap ι) (polls : Nat) : Board ι → Board ι → Prop
  | lookWr (t : Board ι) (i : ι) (hdir : m.dir i = .m2s) :
      SlaveActs m polls t
        (t.setSlave i { t.slave i with wr := u16 (t.mem (m.wrAddr i)).toNat })
  | take (t : Board ι) (i : ι) (hdir : m.dir i = .m2s) (hne : (t.slave i).rd ≠ (t.slave i).wr)
      (hlt : (t.slave i).rd < m.size i) :
      SlaveActs m polls t
        ((t.setSlave i { t.slave i with rd := m.next i (t.slave i).rd }).receive i
          (t.mem (m.slotAddr i (t.slave i).rd)))
  | giveRd (t : Board ι) (i : ι) (w : Word) (hdir : m.dir i = .m2s)
      (hw : u16 w.toNat = (t.slave i).rd) : SlaveActs m polls t (t.poke (m.rdAddr i) w)
  | lookRd (t : Board ι) (i : ι) (hdir : m.dir i = .s2m) :
      SlaveActs m polls t
        (t.setSlave i { t.slave i with rd := u16 (t.mem (m.rdAddr i)).toNat })
  | put (t : Board ι) (i : ι) (w : Word) (hdir : m.dir i = .s2m)
      (hne : m.next i (t.slave i).wr ≠ (t.slave i).rd) (hlt : (t.slave i).wr < m.size i) :
      SlaveActs m polls t
        (((t.setSlave i { t.slave i with wr := m.next i (t.slave i).wr }).poke
          (m.slotAddr i (t.slave i).wr) w).record i w)
  | giveWr (t : Board ι) (i : ι) (w : Word) (hdir : m.dir i = .s2m)
      (hw : u16 w.toNat = (t.slave i).wr) : SlaveActs m polls t (t.poke (m.wrAddr i) w)
  | other (t : Board ι) (addr : UInt32) (w : Word) (h : ∀ i, ¬ m.Owns i addr) :
      SlaveActs m polls t (t.poke addr w)
  | pace (t : Board ι) (before after : Nat) (h : before + after < polls) :
      SlaveActs m polls t { t with pace := (before, after) }
  | signal (t : Board ι) (bits : UInt16) :
      SlaveActs m polls t { t with s2mMbx := t.s2mMbx ||| bits }

def busFace (m : MemoryMap ι) (polls : Nat) : Interface (Board ι) Transfer TransferAnswer :=
  ⟨serveBus m, SlaveActs m polls⟩

/-! ### What the driver does -/

/-- The driver's use of the bus, under its mutex. -/
inductive BusCall (ι : Type)
  | queue (i : ι) (call : Call)
  | getS2mMbx

inductive BusReply
  | queue (reply : Reply)
  | mbox (ret : Except Errno UInt8)

/-- A call on a queue. -/
def callProgram (polls : Nat) (ch : Fin numQueues) (qs : QueueData) : Call → Replying
  | .write buff => OnBus.write polls ch qs buff
  | .read num => OnBus.read polls qs num
  | .pullWrPtr => returned (OnBus.pullWrPtr polls ch qs) fun
    | .error e => .done (some ⟨.error e, [], qs⟩)
    | .ok qs => .done (some ⟨.ok 0, [], qs⟩)
  | .pushRdPtr => returned (OnBus.pushRdPtr polls ch qs) fun
    | .error e => .done (some ⟨.error e, [], qs⟩)
    | .ok () => .done (some ⟨.ok 0, [], qs⟩)

/-- A queue as both ends of it see it. -/
def Board.queue (m : MemoryMap ι) (t : Board ι) (i : ι) : World where
  shared :=
    ⟨m.flags i, m.baseAddr i, u16 (t.mem (m.rdAddr i)).toNat, u16 (t.mem (m.wrAddr i)).toNat⟩
  words offset := if offset < m.size i then t.mem (m.slotAddr i offset) else 0
  qs := t.qs i
  slave := t.slave i
  written := t.written i
  received := t.received i
  sent := t.sent i

/-- The host's side of a queue after a call. -/
def Board.setHost (t : Board ι) (i : ι) (s : World) : Board ι :=
  { t with
    qs := Function.update t.qs i s.qs
    received := Function.update t.received i s.received
    sent := Function.update t.sent i s.sent }

def busClient (m : MemoryMap ι) (polls : Nat) :
    Client (Board ι) Transfer TransferAnswer (BusCall ι) (Option BusReply) where
  program t
    | .queue i call =>
      (callProgram polls (m.ch i) (t.qs i) call).bind fun r => .done (r.map .queue)
    | .getS2mMbx => OnBus.getS2mMbx.bind fun r => .done (r.map .mbox)
  allowed t
    | .queue i call => (client (m.dir i)).allowed (t.queue m i) call
    | .getS2mMbx => True
  finish t
    | .queue i call, some (.queue r) => t.setHost i ((client (m.dir i)).finish (t.queue m i) call r)
    | _, _ => t

abbrev BusConfig (ι : Type) :=
  Config (Board ι) Transfer TransferAnswer (BusCall ι) (Option BusReply)

abbrev BusRun (m : MemoryMap ι) (polls : Nat) :=
  ReflTransGen (Step (busFace m polls) (busClient m polls))

/-- The queues as the driver finds them, behind a slave that waits for a command. -/
structure Board.Initial (m : MemoryMap ι) (polls : Nat) (t : Board ι) : Prop where
  queue : ∀ i, (t.queue m i).Initial
  baseAddr : ∀ i, (t.qs i).baseAddr = m.baseAddr i
  ready : t.regs.Ready
  pace : t.pace.1 + t.pace.2 < polls
  misused : t.misused = false

end MangOH.Mt7697q
