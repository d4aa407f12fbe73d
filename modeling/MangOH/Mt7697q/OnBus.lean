import MangOH.Mt7697q.Interrupt
import MangOH.Mt7697q.Io

/-! The driver's functions on its queues, by transfers over the bus. -/
namespace MangOH.Mt7697q.OnBus
open Interaction Mt7697io

/-- `sizeof(struct mt7697q_data)`, and the offsets in it. -/
def sizeofData : Nat := 16
def offsetofRdOffset : Nat := 8
def offsetofWrOffset : Nat := 12

/-- The address of a field of a channel's control words. -/
def dataAddr (ch : Fin numQueues) (field : Nat) : UInt32 :=
  slaveBufferAddress + .ofNat (ch.val * sizeofData) + .ofNat field

/-- The address of a word of a queue. -/
def wordAddr (baseAddr : UInt32) (offset : Nat) : UInt32 := baseAddr + .ofNat (offset * 4)

abbrev Replying := Program Transfer TransferAnswer (Option Reply)

variable {α : Type}

/-- Go on with what a function returns, be it an error. -/
def returned (x : Bus α) (f : Except Errno α → Replying) : Replying :=
  x.bind fun
    | none => .done none
    | some ret => f ret

def notifySlave (ch : Fin numQueues) : Bus Unit :=
  (wrM2sMbx (.ofNat (1 <<< ch.val))).andThen fun _ => triggerIntr

variable (polls : Nat) (ch : Fin numQueues)

def pullRdPtr (qs : QueueData) : Bus QueueData :=
  (rd polls (dataAddr ch offsetofRdOffset) 1).andThen fun rdOffset =>
    Bus.ok { qs with rdOffset := u16 (rdOffset.headD 0).toNat }

def pushRdPtr (qs : QueueData) : Bus Unit :=
  (wr polls (dataAddr ch offsetofRdOffset) [.ofNat qs.rdOffset]).andThen fun _ => notifySlave ch

def pullWrPtr (qs : QueueData) : Bus QueueData :=
  (rd polls (dataAddr ch offsetofWrOffset) 1).andThen fun wrOffset =>
    Bus.ok { qs with wrOffset := u16 (wrOffset.headD 0).toNat }

def pushWrPtr (qs : QueueData) : Bus Unit :=
  (wr polls (dataAddr ch offsetofWrOffset) [.ofNat qs.wrOffset]).andThen fun _ => notifySlave ch

/-- The first transfer of a write. -/
def writeToEnd (qs : QueueData) (buff : List Word) : Bus (Nat × Nat) :=
  if qs.wrOffset ≥ qs.rdOffset then
    let buffWords := numWords qs.flags
    let wordsToWrite := wordsBeforeEnd buffWords qs.rdOffset qs.wrOffset buff.length
    (wr polls (wordAddr qs.baseAddr qs.wrOffset) (buff.take wordsToWrite)).andThen fun _ =>
      Bus.ok (wordsToWrite, wrap buffWords (u16 (qs.wrOffset + wordsToWrite)))
  else Bus.ok (0, qs.wrOffset)

/-- The second transfer. -/
def writeToReader (qs : QueueData) (writeOffset : Nat) (buff : List Word) : Bus (Nat × Nat) :=
  if writeOffset < qs.rdOffset ∧ buff.length > 0 then
    let wordsToWrite := wordsBeforeReader qs.rdOffset writeOffset buff.length
    (wr polls (wordAddr qs.baseAddr writeOffset) (buff.take wordsToWrite)).andThen fun _ =>
      Bus.ok (wordsToWrite, u16 (writeOffset + wordsToWrite))
  else Bus.ok (0, writeOffset)

/-- The part of `mt7697q_write` after the check for room. -/
def writeWords (qs : QueueData) (buff : List Word) : Replying :=
  returned (writeToEnd polls qs buff) fun
    | .error e => .done (some ⟨.error e, [], qs⟩)
    | .ok (written, writeOffset) =>
      returned (writeToReader polls qs writeOffset (buff.drop written)) fun
        | .error e => .done (some ⟨.error e, [], qs⟩)
        | .ok (more, writeOffset) =>
          if writeOffset ≥ numWords qs.flags then .done (some ⟨.error .inval, [], qs⟩)
          else
            let qs := { qs with wrOffset := writeOffset }
            returned (pushWrPtr polls ch qs) fun
              | .error e => .done (some ⟨.error e, [], qs⟩)
              | .ok () => .done (some ⟨.ok (written + more), [], qs⟩)

def write (qs : QueueData) (buff : List Word) : Replying :=
  let avail := getFreeWords qs
  if avail < buff.length then
    returned (pullRdPtr polls ch qs) fun
      | .error e => .done (some ⟨.error e, [], qs⟩)
      | .ok qs =>
        if avail < buff.length then .done (some ⟨.error .again, [], qs⟩)
        else writeWords polls ch qs buff
  else writeWords polls ch qs buff

/-- The first transfer of a read. -/
def readToEnd (qs : QueueData) (num : Nat) : Bus (List Word × Nat) :=
  if qs.rdOffset > qs.wrOffset then
    let buffWords := numWords qs.flags
    let wordsToEnd := sub32 buffWords qs.rdOffset
    let rdNum := if num ≤ wordsToEnd then num else wordsToEnd
    (rd polls (wordAddr qs.baseAddr qs.rdOffset) rdNum).andThen fun words =>
      Bus.ok (words, wrap buffWords (u16 (qs.rdOffset + rdNum)))
  else Bus.ok ([], qs.rdOffset)

/-- The second transfer. -/
def readToWriter (qs : QueueData) (readOffset rdWords num : Nat) : Bus (List Word × Nat) :=
  if rdWords < num then
    let wordsAvail := sub32 qs.wrOffset readOffset
    let wordsReq := sub32 num rdWords
    let rdNum := if wordsReq ≤ wordsAvail then wordsReq else wordsAvail
    (rd polls (wordAddr qs.baseAddr readOffset) rdNum).andThen fun words =>
      Bus.ok (words, u16 (readOffset + rdNum))
  else Bus.ok ([], readOffset)

def read (qs : QueueData) (num : Nat) : Replying :=
  returned (readToEnd polls qs num) fun
    | .error e => .done (some ⟨.error e, [], qs⟩)
    | .ok (words, readOffset) =>
      returned (readToWriter polls qs readOffset words.length num) fun
        | .error e => .done (some ⟨.error e, words, qs⟩)
        | .ok (more, readOffset) =>
          if readOffset ≥ numWords qs.flags then .done (some ⟨.error .inval, words ++ more, qs⟩)
          else .done (some ⟨.ok (words.length + more.length), words ++ more,
            { qs with rdOffset := readOffset }⟩)

/-- `mt7697q_get_s2m_mbx`, by transfers. -/
def getS2mMbx : Bus UInt8 :=
  rdS2mMbx.andThen fun s2mMbox => (clrS2mMbx s2mMbox).andThen fun _ => Bus.ok s2mMbox

end MangOH.Mt7697q.OnBus
