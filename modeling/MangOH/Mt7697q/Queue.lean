import Mathlib.Algebra.Group.Nat.Defs
import MangOH.Lib.Interaction

/-! The driver's ring queues in the memory of the MT7697, reached word by word over SPI. -/
namespace MangOH.Mt7697q
open Interaction

/-- A `u32` of a queue. -/
abbrev Word := UInt32

/-- Truncation to a `u16`. -/
def u16 (n : Nat) : Nat := n % 2 ^ 16

/-- Subtraction of `u32` and `size_t` values, which are 32 bits wide on the host. -/
def sub32 (a b : Nat) : Nat := (a + 2 ^ 32 - b) % 2 ^ 32

/-- `BF_GET`: the mask `GENMASK(w, 0)` keeps one bit more than the width says. -/
def bfGet (v o w : Nat) : Nat := v >>> o &&& (2 ^ (w + 1) - 1)

def flagsNumWordsOffset : Nat := 16
def flagsNumWordsWidth : Nat := 16

/-- The control words of a queue, in the slave's memory and in the host's copy. -/
structure QueueData where
  flags : UInt32
  baseAddr : UInt32
  rdOffset : Nat
  wrOffset : Nat
deriving DecidableEq, Repr

/-- The error numbers that the queue's functions return. -/
inductive Errno
  | again
  | inval
  | io
  | nomem
deriving DecidableEq, Repr

/-- What the driver asks of the slave over the bus. The words of a queue are addressed by their
offset from the queue's base address. -/
inductive Request
  | rdOffset
  | wrOffset
  | setRdOffset (offset : Nat)
  | setWrOffset (offset : Nat)
  | word (offset : Nat)
  | setWord (offset : Nat) (w : Word)
  | wrM2sMbx
  | triggerIntr
deriving DecidableEq, Repr

/-- Every transfer can fail. -/
def Answer : Request → Type
  | .rdOffset | .wrOffset => Except Errno Nat
  | .word _ => Except Errno Word
  | _ => Except Errno Unit

abbrev Spi (α : Type) := Program Request Answer (Except Errno α)

/-- The number of words of the queue, free ones included. -/
def numWords (flags : UInt32) : Nat :=
  bfGet flags.toNat flagsNumWordsOffset flagsNumWordsWidth

def bufDiff (size «from» «to» : Nat) : Nat :=
  if «from» ≤ «to» then sub32 «to» «from» else (sub32 size «from» + «to») % 2 ^ 32

def getCapacity (qs : QueueData) : Nat := sub32 (numWords qs.flags) 1

def getNumWords (qs : QueueData) : Nat := bufDiff (numWords qs.flags) qs.rdOffset qs.wrOffset

def getFreeWords (qs : QueueData) : Nat := sub32 (getCapacity qs) (getNumWords qs)

/-- `mt7697io_wr` to a queue's words; the bus address advances with each word. -/
def ioWr (offset : Nat) : List Word → Spi Unit
  | [] => .done (.ok ())
  | w :: words => .ask (.setWord offset w) fun
    | .error e => .done (.error e)
    | .ok () => ioWr (offset + 1) words

/-- `mt7697io_rd` of a queue's words. -/
def ioRd (offset : Nat) : Nat → Spi (List Word)
  | 0 => .done (.ok [])
  | num + 1 => .ask (.word offset) fun
    | .error e => .done (.error e)
    | .ok w => (ioRd (offset + 1) num).bind fun
      | .error e => .done (.error e)
      | .ok words => .done (.ok (w :: words))

/-- Tell the slave that a queue has changed. -/
def notifySlave : Spi Unit :=
  .ask .wrM2sMbx fun
    | .error e => .done (.error e)
    | .ok () => .ask .triggerIntr .done

def pullRdPtr (qs : QueueData) : Spi QueueData :=
  .ask .rdOffset fun
    | .error e => .done (.error e)
    | .ok offset => .done (.ok { qs with rdOffset := u16 offset })

def pushRdPtr (qs : QueueData) : Spi Unit :=
  .ask (.setRdOffset qs.rdOffset) fun
    | .error e => .done (.error e)
    | .ok () => notifySlave

def pullWrPtr (qs : QueueData) : Spi QueueData :=
  .ask .wrOffset fun
    | .error e => .done (.error e)
    | .ok offset => .done (.ok { qs with wrOffset := u16 offset })

def pushWrPtr (qs : QueueData) : Spi Unit :=
  .ask (.setWrOffset qs.wrOffset) fun
    | .error e => .done (.error e)
    | .ok () => notifySlave

/-- An offset that has reached the end of the ring starts again. -/
def wrap (buffWords offset : Nat) : Nat := if offset = buffWords then 0 else offset

/-- The words to write before the end of the ring. -/
def wordsBeforeEnd (buffWords readOffset writeOffset num : Nat) : Nat :=
  let wordsToEnd := sub32 buffWords writeOffset
  let wordsAvail := if readOffset = 0 then sub32 wordsToEnd 1 else wordsToEnd
  if num ≤ wordsAvail then num else wordsAvail

/-- The words to write before the slot in front of the reader. -/
def wordsBeforeReader (readOffset writeOffset num : Nat) : Nat :=
  let wordsToRead := sub32 (sub32 readOffset writeOffset) 1
  if num ≤ wordsToRead then num else wordsToRead

/-- The first transfer of a write: the words written and the offset after them. -/
def writeToEnd (buffWords readOffset writeOffset : Nat) (buff : List Word) : Spi (Nat × Nat) :=
  if writeOffset ≥ readOffset then
    let wordsToWrite := wordsBeforeEnd buffWords readOffset writeOffset buff.length
    (ioWr writeOffset (buff.take wordsToWrite)).bind fun
      | .error e => .done (.error e)
      | .ok () => .done (.ok (wordsToWrite, wrap buffWords (u16 (writeOffset + wordsToWrite))))
  else .done (.ok (0, writeOffset))

/-- The second transfer. -/
def writeToReader (readOffset writeOffset : Nat) (buff : List Word) : Spi (Nat × Nat) :=
  if writeOffset < readOffset ∧ buff.length > 0 then
    let wordsToWrite := wordsBeforeReader readOffset writeOffset buff.length
    (ioWr writeOffset (buff.take wordsToWrite)).bind fun
      | .error e => .done (.error e)
      | .ok () => .done (.ok (wordsToWrite, u16 (writeOffset + wordsToWrite)))
  else .done (.ok (0, writeOffset))

/-- What a call returns, the words it read, and the host's copy of the control words after it. -/
structure Reply where
  ret : Except Errno Nat
  buf : List Word
  qs : QueueData

/-- The part of `mt7697q_write` after the check for room. -/
def writeWords (qs : QueueData) (buff : List Word) : Program Request Answer Reply :=
  let buffWords := numWords qs.flags
  (writeToEnd buffWords qs.rdOffset qs.wrOffset buff).bind fun
    | .error e => .done ⟨.error e, [], qs⟩
    | .ok (written, writeOffset) =>
      (writeToReader qs.rdOffset writeOffset (buff.drop written)).bind fun
        | .error e => .done ⟨.error e, [], qs⟩
        | .ok (more, writeOffset) =>
          if writeOffset ≥ buffWords then .done ⟨.error .inval, [], qs⟩
          else
            let qs := { qs with wrOffset := writeOffset }
            (pushWrPtr qs).bind fun
              | .error e => .done ⟨.error e, [], qs⟩
              | .ok () => .done ⟨.ok (written + more), [], qs⟩

/-- `mt7697q_write`; a fresh read offset is not used before the next call. -/
def write (qs : QueueData) (buff : List Word) : Program Request Answer Reply :=
  let avail := getFreeWords qs
  if avail < buff.length then
    (pullRdPtr qs).bind fun
      | .error e => .done ⟨.error e, [], qs⟩
      | .ok qs =>
        if avail < buff.length then .done ⟨.error .again, [], qs⟩
        else writeWords qs buff
  else writeWords qs buff

/-- The first transfer of a read, when the unread words run over the end of the ring. -/
def readToEnd (buffWords readOffset writeOffset num : Nat) : Spi (List Word × Nat) :=
  if readOffset > writeOffset then
    let wordsToEnd := sub32 buffWords readOffset
    let rdNum := if num ≤ wordsToEnd then num else wordsToEnd
    (ioRd readOffset rdNum).bind fun
      | .error e => .done (.error e)
      | .ok words => .done (.ok (words, wrap buffWords (u16 (readOffset + rdNum))))
  else .done (.ok ([], readOffset))

/-- The second transfer. -/
def readToWriter (readOffset writeOffset rdWords num : Nat) : Spi (List Word × Nat) :=
  if rdWords < num then
    let wordsAvail := sub32 writeOffset readOffset
    let wordsReq := sub32 num rdWords
    let rdNum := if wordsReq ≤ wordsAvail then wordsReq else wordsAvail
    (ioRd readOffset rdNum).bind fun
      | .error e => .done (.error e)
      | .ok words => .done (.ok (words, u16 (readOffset + rdNum)))
  else .done (.ok ([], readOffset))

/-- `mt7697q_read`. -/
def read (qs : QueueData) (num : Nat) : Program Request Answer Reply :=
  let buffWords := numWords qs.flags
  (readToEnd buffWords qs.rdOffset qs.wrOffset num).bind fun
    | .error e => .done ⟨.error e, [], qs⟩
    | .ok (words, readOffset) =>
      (readToWriter readOffset qs.wrOffset words.length num).bind fun
        | .error e => .done ⟨.error e, words, qs⟩
        | .ok (more, readOffset) =>
          if readOffset ≥ buffWords then .done ⟨.error .inval, words ++ more, qs⟩
          else .done ⟨.ok (words.length + more.length), words ++ more,
            { qs with rdOffset := readOffset }⟩

end MangOH.Mt7697q
