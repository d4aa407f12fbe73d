import Mathlib.Data.List.Infix
import MangOH.Lib.Ring
import MangOH.Mt7697q.Queue

/-! The driver and the slave as the two ends of one queue, interleaved word by word. -/
namespace MangOH.Mt7697q
open Interaction Relation

/-- The slave's copies of the two offsets. -/
structure Offsets where
  rd : Nat
  wr : Nat
deriving DecidableEq, Repr

/-- A queue in the slave's memory, the copies of its control words at both ends, and the words
that went into it and came out, with those of the calls of the driver that are over. -/
structure World where
  shared : QueueData
  words : Nat → Word
  qs : QueueData
  slave : Offsets
  written : List Word
  received : List Word
  sent : List Word

/-- The slave's memory answers the driver; transfers succeed. -/
def serve (s : World) : (o : Request) → World × Answer o
  | .rdOffset => (s, .ok s.shared.rdOffset)
  | .wrOffset => (s, .ok s.shared.wrOffset)
  | .setRdOffset offset => ({ s with shared := { s.shared with rdOffset := offset } }, .ok ())
  | .setWrOffset offset => ({ s with shared := { s.shared with wrOffset := offset } }, .ok ())
  | .word offset => (s, .ok (s.words offset))
  | .setWord offset w =>
    ({ s with words := Function.update s.words offset w, written := s.written ++ [w] }, .ok ())
  | .wrM2sMbx => (s, .ok ())
  | .triggerIntr => (s, .ok ())

/-- The offset after this one. -/
def World.next (s : World) (offset : Nat) : Nat :=
  if offset + 1 = numWords s.shared.flags then 0 else offset + 1

/-- The slave at the reading end: it reads the words up to the write offset it last looked at,
and says how far it is when it likes. -/
inductive Consumes : World → World → Prop
  | look (s : World) : Consumes s { s with slave.wr := s.shared.wrOffset }
  | take (s : World) (h : s.slave.rd ≠ s.slave.wr) :
      Consumes s { s with slave.rd := s.next s.slave.rd,
                          received := s.received ++ [s.words s.slave.rd] }
  | give (s : World) : Consumes s { s with shared.rdOffset := s.slave.rd }

/-- The slave at the writing end: it writes words up to the slot before the read offset it last
looked at. -/
inductive Produces : World → World → Prop
  | look (s : World) : Produces s { s with slave.rd := s.shared.rdOffset }
  | put (s : World) (w : Word) (h : s.next s.slave.wr ≠ s.slave.rd) :
      Produces s { s with words := Function.update s.words s.slave.wr w,
                          slave.wr := s.next s.slave.wr, written := s.written ++ [w] }
  | give (s : World) : Produces s { s with shared.wrOffset := s.slave.wr }

inductive Dir
  | m2s
  | s2m
deriving DecidableEq, Repr

def face : Dir → Interface World Request Answer
  | .m2s => ⟨serve, Consumes⟩
  | .s2m => ⟨serve, Produces⟩

/-- The driver's operations on a queue. -/
inductive Call
  | write (buff : List Word)
  | pullWrPtr
  | read (num : Nat)
  | pushRdPtr
deriving DecidableEq, Repr

/-- Each operation under the queue's mutex; a read asks for at most the words available. -/
def client (dir : Dir) : Client World Request Answer Call Reply where
  program s
    | .write buff => write s.qs buff
    | .read num => read s.qs num
    | .pullWrPtr => (pullWrPtr s.qs).bind fun
      | .error e => .done ⟨.error e, [], s.qs⟩
      | .ok qs => .done ⟨.ok 0, [], qs⟩
    | .pushRdPtr => (pushRdPtr s.qs).bind fun
      | .error e => .done ⟨.error e, [], s.qs⟩
      | .ok () => .done ⟨.ok 0, [], s.qs⟩
  allowed s
    | .write _ => dir = .m2s
    | .read num => dir = .s2m ∧ num ≤ getNumWords s.qs
    | .pullWrPtr | .pushRdPtr => dir = .s2m
  finish s call reply :=
    { s with
      qs := reply.qs
      received := s.received ++ reply.buf
      sent := s.sent ++ match call, reply.ret with
        | .write buff, .ok num => buff.take num
        | _, _ => [] }

abbrev Run (dir : Dir) := ReflTransGen (Step (face dir) (client dir))

abbrev QueueConfig := Config World Request Answer Call Reply

/-- A queue as the driver finds it: both ends agree on the offsets, which are below the number of
words, and the words between them have not been read. -/
structure World.Initial (s : World) : Prop where
  size : numWords s.qs.flags = numWords s.shared.flags
  rd : s.qs.rdOffset = s.shared.rdOffset
  wr : s.qs.wrOffset = s.shared.wrOffset
  slave : s.slave = ⟨s.shared.rdOffset, s.shared.wrOffset⟩
  rd_lt : s.shared.rdOffset < numWords s.shared.flags
  wr_lt : s.shared.wrOffset < numWords s.shared.flags
  written : s.written = (List.range (getNumWords s.shared)).map fun i =>
    s.words ((s.shared.rdOffset + i) % numWords s.shared.flags)
  received : s.received = []
  sent : s.sent = s.written

variable {a b : Ring Word} {s t : World} {dir : Dir}

theorem numWords_lt (flags : UInt32) : numWords flags < 2 ^ 16 := by
  have hflags := flags.toNat_lt
  have hshift : flags.toNat >>> 16 < 2 ^ 16 := by
    rw [Nat.shiftRight_eq_div_pow]
    omega
  exact Nat.lt_of_le_of_lt Nat.and_le_left hshift

theorem sub32_of_le {m n : Nat} (h : n ≤ m) (hm : m < 2 ^ 32) : sub32 m n = m - n := by
  unfold sub32
  omega

theorem u16_of_lt {n : Nat} (h : n < 2 ^ 16) : u16 n = n := Nat.mod_eq_of_lt h

theorem bufDiff_eq {size m n : Nat} (hsize : size < 2 ^ 16) (hm : m < size) (hn : n < size) :
    bufDiff size m n = Ring.gap size m n := by
  unfold bufDiff Ring.gap
  split
  · exact sub32_of_le ‹_› (by omega)
  · rw [sub32_of_le (by omega) (by omega)]
    omega

/-- The ring of positions that a queue stands for, whichever end the driver is at. -/
structure Holds (a : Ring Word) (s : World) : Prop where
  valid : a.Valid
  size : a.size = numWords s.shared.flags
  hostSize : numWords s.qs.flags = numWords s.shared.flags
  slots : a.slots = s.words
  written : a.written = s.written
  received : s.received = s.written.take a.consumed
  sharedRd : s.shared.rdOffset = a.slot a.returned
  sharedWr : s.shared.wrOffset = a.slot a.published

/-- The driver writes and the slave reads. -/
structure Writer (a : Ring Word) (s : World) : Prop extends Holds a s where
  hostRd : s.qs.rdOffset = a.slot a.freed
  slaveRd : s.slave.rd = a.slot a.consumed
  slaveWr : s.slave.wr = a.slot a.seen

/-- The driver reads and the slave writes. -/
structure Reader (a : Ring Word) (s : World) : Prop extends Holds a s where
  slaveRd : s.slave.rd = a.slot a.freed
  slaveWr : s.slave.wr = a.slot a.written.length
  hostRd : s.qs.rdOffset = a.slot a.consumed
  hostWr : s.qs.wrOffset = a.slot a.seen

theorem Holds.size_lt (h : Holds a s) : a.size < 2 ^ 16 := h.size ▸ numWords_lt _

theorem Holds.next_slot (h : Holds a s) (n : Nat) : s.next (a.slot n) = a.slot (n + 1) := by
  rw [Ring.slot_succ h.valid, World.next, h.size]

theorem Holds.consumed_le (h : Holds a s) : a.consumed ≤ s.written.length := by
  have := h.valid.consumed_le
  have := h.valid.seen_le
  have := h.valid.published_le
  rw [← h.written]
  omega

theorem Holds.freed_le (h : Holds a s) : a.freed ≤ s.written.length :=
  Nat.le_trans h.valid.freed_le (Nat.le_trans h.valid.returned_le h.consumed_le)

theorem Holds.length_received (h : Holds a s) : s.received.length = a.consumed := by
  rw [h.received, List.length_take, Nat.min_eq_left h.consumed_le]

/-- The word at the consumer's position. -/
theorem Holds.word (h : Holds a s) {i : Nat} (hi : i < s.written.length) (hread : a.consumed ≤ i) :
    s.words (a.slot i) = s.written[i] := by
  have := h.valid.intact i (h.written ▸ hi) hread
  rw [← h.slots]
  simpa only [h.written] using this

/-- The unread words between two positions, as the host counts them. -/
theorem Holds.diff_slot (h : Holds a s) {m n : Nat} (hmn : m ≤ n) (hn : n < m + a.size) :
    bufDiff (numWords s.qs.flags) (a.slot m) (a.slot n) = n - m := by
  rw [h.hostSize, ← h.size, bufDiff_eq h.size_lt (Ring.slot_lt h.valid _) (Ring.slot_lt h.valid _),
    Ring.gap_slot h.valid hmn hn]

/-- What the slave at the reading end does to the positions. -/
theorem Writer.consumes (h : Writer a s) (hstep : Consumes s t) :
    ∃ b, Writer b t ∧ b.size = a.size ∧ b.start = a.start ∧ b.freed = a.freed ∧
      b.published = a.published ∧ a.returned ≤ b.returned ∧ t.qs = s.qs ∧ t.sent = s.sent ∧
      t.written = s.written := by
  have hv := h.valid
  cases hstep with
  | look =>
    refine ⟨a.see a.published, ⟨⟨hv.see hv.seen_le le_rfl, h.size, h.hostSize, h.slots, h.written,
      h.received, h.sharedRd, h.sharedWr⟩, h.hostRd, h.slaveRd, h.sharedWr⟩, ?_⟩
    exact ⟨rfl, rfl, rfl, rfl, le_rfl, rfl, rfl, rfl⟩
  | take hne =>
    have hlt : a.consumed < a.seen := by
      refine Nat.lt_of_le_of_ne hv.consumed_le fun heq => hne ?_
      rw [h.slaveRd, h.slaveWr, heq]
    have hwritten : a.consumed < s.written.length := by
      have := hv.seen_le
      have := hv.published_le
      rw [← h.written]
      omega
    refine ⟨a.take (a.consumed + 1), ⟨⟨hv.take (Nat.le_succ _) hlt, h.size, h.hostSize, h.slots,
      h.written, ?_, h.sharedRd, h.sharedWr⟩, h.hostRd, ?_, h.slaveWr⟩, ?_⟩
    · change s.received ++ [s.words s.slave.rd] = s.written.take (a.consumed + 1)
      rw [h.received, h.slaveRd, h.word hwritten le_rfl, List.take_append_getElem hwritten]
    · change s.next s.slave.rd = a.slot (a.consumed + 1)
      rw [h.slaveRd, h.next_slot]
    · exact ⟨rfl, rfl, rfl, rfl, le_rfl, rfl, rfl, rfl⟩
  | give =>
    refine ⟨a.release a.consumed, ⟨⟨hv.release hv.returned_le le_rfl, h.size, h.hostSize, h.slots,
      h.written, h.received, h.slaveRd, h.sharedWr⟩, h.hostRd, h.slaveRd, h.slaveWr⟩, ?_⟩
    exact ⟨rfl, rfl, rfl, rfl, hv.returned_le, rfl, rfl, rfl⟩

/-- What the slave at the writing end does to the positions. -/
theorem Reader.produces (h : Reader a s) (hstep : Produces s t) :
    ∃ b, Reader b t ∧ b.size = a.size ∧ b.start = a.start ∧ b.consumed = a.consumed ∧
      b.seen = a.seen ∧ a.published ≤ b.published ∧ t.qs = s.qs ∧ t.received = s.received ∧
      s.written <+: t.written := by
  have hv := h.valid
  cases hstep with
  | look =>
    refine ⟨a.learn a.returned, ⟨⟨hv.learn hv.freed_le le_rfl, h.size, h.hostSize, h.slots,
      h.written, h.received, h.sharedRd, h.sharedWr⟩, h.sharedRd, h.slaveWr, h.hostRd, h.hostWr⟩,
      ?_⟩
    exact ⟨rfl, rfl, rfl, rfl, le_rfl, rfl, rfl, List.prefix_rfl⟩
  | put w hne =>
    have hroom : a.written.length + 1 < a.freed + a.size := by
      refine Nat.lt_of_le_of_ne hv.room fun heq => hne ?_
      rw [h.slaveWr, h.slaveRd, h.next_slot, heq, Ring.slot, Ring.slot, ← Nat.add_assoc,
        Nat.add_mod_right]
    refine ⟨a.store w, ⟨⟨hv.store hroom, h.size, h.hostSize, ?_, ?_, ?_, h.sharedRd, h.sharedWr⟩,
      h.slaveRd, ?_, h.hostRd, h.hostWr⟩, ?_⟩
    · change Function.update a.slots (a.slot a.written.length) w = _
      rw [h.slots, h.slaveWr]
    · change a.written ++ [w] = s.written ++ [w]
      rw [h.written]
    · change s.received = (s.written ++ [w]).take a.consumed
      rw [h.received, List.take_append_of_le_length h.consumed_le]
    · change s.next s.slave.wr = a.slot (a.written ++ [w]).length
      rw [h.slaveWr, h.next_slot, List.length_append, List.length_singleton]
    · exact ⟨rfl, rfl, rfl, rfl, le_rfl, rfl, rfl, List.prefix_append _ _⟩
  | give =>
    refine ⟨a.publish a.written.length, ⟨⟨hv.publish hv.published_le le_rfl, h.size, h.hostSize,
      h.slots, h.written, h.received, h.sharedRd, h.slaveWr⟩, h.slaveRd, h.slaveWr, h.hostRd,
      h.hostWr⟩, ?_⟩
    exact ⟨rfl, rfl, rfl, rfl, hv.published_le, rfl, rfl, List.prefix_rfl⟩

theorem slot_congr {a b : Ring Word} (hsize : b.size = a.size) (hstart : b.start = a.start)
    (n : Nat) : b.slot n = a.slot n := by
  rw [Ring.slot, Ring.slot, hsize, hstart]

theorem wrap_slot (h : Holds a t) {n k : Nat} (hk : a.slot n + k ≤ a.size) :
    wrap a.size (u16 (a.slot n + k)) = a.slot (n + k) := by
  have hsize := h.size_lt
  have hlt := Ring.slot_lt h.valid n
  rw [u16_of_lt (by omega), wrap, Ring.slot_add h.valid (by omega)]
  split_ifs <;> omega

/-- The sequencing rule where no transfer fails. -/
theorem safe_bindOk {α β : Type} {Inv : World → Prop} {x : Spi α}
    {f : Except Errno α → Program Request Answer β}
    {Q : α → World → Prop} {R : β → World → Prop}
    (h : Safe (face dir) Inv x (fun r u => ∃ v, r = .ok v ∧ Q v u) s)
    (hf : ∀ v u, Q v u → Safe (face dir) Inv (f (.ok v)) R u) :
    Safe (face dir) Inv (x.bind f) R s := by
  refine h.bind fun r u hr => ?_
  obtain ⟨v, rfl, hv⟩ := hr
  exact hf v u hv

end MangOH.Mt7697q
