import MangOH.Mt7697q.ReadSafety
import MangOH.Mt7697q.WriteSafety

/-! Every interleaving of the driver and the slave keeps a queue safe. -/
namespace MangOH.Mt7697q
open Interaction Relation

variable {a : Ring Word} {s : World} {dir : Dir}
/-- The words in the queue: from the reader's own offset to the writer's own. -/
def World.used (dir : Dir) (s : World) : Nat :=
  match dir with
  | .m2s => bufDiff (numWords s.qs.flags) s.slave.rd s.qs.wrOffset
  | .s2m => bufDiff (numWords s.qs.flags) s.qs.rdOffset s.slave.wr

/-- A stale copy makes the driver see less room, or fewer words, than there are. -/
def World.View (dir : Dir) (s : World) : Prop :=
  match dir with
  | .m2s => s.sent.length - s.received.length ≤ getNumWords s.qs
  | .s2m => getNumWords s.qs ≤ s.written.length - s.received.length

/-- What the driver wrote are the words of its calls, in order, with a part of the call under
way. -/
def World.Sent (s : World) : Option (Call × Program Request Answer Reply) → Prop
  | none => s.written = s.sent
  | some (call, _) =>
    ∃ buff part, call = .write buff ∧ part <+: buff ∧ s.written = s.sent ++ part

/-- What a call returns once it has run: all or nothing is written, and all is read. -/
def Replied : Call → Reply → Prop
  | .write buff, r => r.ret = .ok buff.length ∨ r.ret = .error .again
  | .read num, r => r.ret = .ok num ∧ r.buf.length = num
  | _, _ => True

/-- The safety of a queue whose first word went to the slot `start`. -/
structure QueueSafe (dir : Dir) (start : Nat) (c : QueueConfig) : Prop where
  /-- Nothing is lost, duplicated or reordered. -/
  inOrder : c.state.received <+: c.state.written
  /-- No word is overwritten before it is read. -/
  intact : ∀ i, (h : i < c.state.written.length) → c.state.received.length ≤ i →
    c.state.words ((start + i) % numWords c.state.shared.flags) = c.state.written[i]
  offsets : ∀ offset ∈ [c.state.qs.rdOffset, c.state.qs.wrOffset, c.state.shared.rdOffset,
    c.state.shared.wrOffset, c.state.slave.rd, c.state.slave.wr],
    offset < numWords c.state.shared.flags
  balance : getFreeWords c.state.qs + getNumWords c.state.qs = numWords c.state.shared.flags - 1
  room : c.state.written.length - c.state.received.length ≤ numWords c.state.shared.flags - 1
  /-- The two true offsets tell how many words are in the queue, so full is not empty. -/
  used : (dir = .m2s → c.call = none) →
    c.state.used dir = c.state.written.length - c.state.received.length
  view : c.state.View dir
  sent : dir = .m2s → c.state.Sent c.call
  replied : ∀ call reply, c.call = some (call, .done reply) → Replied call reply

/-- What holds between two calls. -/
def Idle : Dir → Nat → World → Prop
  | .m2s => Settled
  | .s2m => Listening

/-- What holds during a call. -/
def During (dir : Dir) (start : Nat) (call : Call) (s : World) : Prop :=
  match dir with
  | .m2s => ∃ buff, call = .write buff ∧ Unsettled start buff s
  | .s2m => Listening start s

theorem stable_idle (dir : Dir) (start : Nat) : (face dir).Stable (Idle dir start) := by
  intro s t hs hstep
  cases dir with
  | m2s =>
    obtain ⟨a, ha, rfl, hwr, hpub, hsent⟩ := hs
    obtain ⟨b, hb, hsize, hstart, _, hpub', _, hqs, hsent', hwritten⟩ := ha.consumes hstep
    refine ⟨b, hb, hstart, ?_, ?_, ?_⟩
    · rw [hqs, hwr, hpub', slot_congr hsize hstart]
    · rw [hpub', hpub, hb.written, hwritten, ha.written]
    · rw [hsent', hsent, hwritten]
  | s2m =>
    obtain ⟨a, ha, rfl⟩ := hs
    obtain ⟨b, hb, _, hstart, _⟩ := ha.produces hstep
    exact ⟨b, hb, hstart⟩

theorem call_safe {start : Nat} {call : Call} (hs : Idle dir start s)
    (hallowed : (client dir).allowed s call) :
    Safe (face dir) (During dir start call) ((client dir).program s call)
      (fun r u => Replied call r ∧ Idle dir start ((client dir).finish u call r)) s := by
  cases call with
  | write buff =>
    cases (show dir = .m2s from hallowed)
    exact (write_safe hs).weaken fun u hu => ⟨buff, rfl, hu⟩
  | read num =>
    obtain ⟨rfl, hnum⟩ := (show dir = .s2m ∧ num ≤ getNumWords s.qs from hallowed)
    exact read_safe hs hnum
  | pullWrPtr =>
    cases (show dir = .s2m from hallowed)
    exact (pullWrPtr_safe hs).mono fun r u hu => ⟨trivial, hu⟩
  | pushRdPtr =>
    cases (show dir = .s2m from hallowed)
    exact (pushRdPtr_safe hs).mono fun r u hu => ⟨trivial, hu⟩

/-- The ring that a queue stands for at first. -/
theorem World.Initial.idle (dir : Dir) (h : s.Initial) : Idle dir s.shared.rdOffset s := by
  have hnum : getNumWords s.shared =
      Ring.gap (numWords s.shared.flags) s.shared.rdOffset s.shared.wrOffset :=
    bufDiff_eq (numWords_lt _) h.rd_lt h.wr_lt
  have hrd := h.rd_lt
  have hwr := h.wr_lt
  have hlen : s.written.length = getNumWords s.shared := by
    rw [h.written, List.length_map, List.length_range]
  let a : Ring Word := ⟨numWords s.shared.flags, s.shared.rdOffset, s.words, s.written, 0, 0, 0,
    s.written.length, s.written.length⟩
  have hgap : getNumWords s.shared < numWords s.shared.flags := by
    rw [hnum, Ring.gap]
    split <;> omega
  have hv : a.Valid := by
    refine ⟨hrd, le_rfl, le_rfl, Nat.zero_le _, le_rfl, le_rfl, ?_, fun i hi _ => ?_⟩
    · change s.written.length + 1 ≤ 0 + numWords s.shared.flags
      omega
    · change s.words ((s.shared.rdOffset + i) % numWords s.shared.flags) = s.written[i]
      simp only [h.written, List.getElem_map, List.getElem_range]
  have hzero : s.shared.rdOffset = a.slot 0 := (Ring.slot_zero hv).symm
  have hslot : s.shared.wrOffset = a.slot s.written.length := by
    have hadd := Ring.slot_add (n := 0) (d := s.written.length) hv
      (by change s.written.length ≤ numWords s.shared.flags; omega)
    rw [Nat.zero_add, ← hzero, hlen, hnum, Ring.gap] at hadd
    rw [hlen, hnum, Ring.gap]
    rw [hadd]
    change _ = if _ < numWords s.shared.flags then _ else _ - numWords s.shared.flags
    split_ifs <;> omega
  have hholds : Holds a s := ⟨hv, rfl, h.size, rfl, rfl, by simp [h.received, a], hzero, hslot⟩
  have hslaveRd : s.slave.rd = s.shared.rdOffset := by rw [h.slave]
  have hslaveWr : s.slave.wr = s.shared.wrOffset := by rw [h.slave]
  cases dir with
  | m2s =>
    refine ⟨a, ⟨hholds, h.rd.trans hzero, hslaveRd.trans hzero, hslaveWr.trans hslot⟩, rfl,
      h.wr.trans hslot, rfl, h.sent⟩
  | s2m =>
    exact ⟨a, ⟨hholds, hslaveRd.trans hzero, hslaveWr.trans hslot, h.rd.trans hzero,
      h.wr.trans hslot⟩, rfl⟩

theorem Holds.slot_lt (h : Holds a s) (n : Nat) : a.slot n < numWords s.shared.flags :=
  h.size ▸ Ring.slot_lt h.valid n

/-- A free word stays, whatever the host's offsets are. -/
theorem Holds.balance {m n : Nat} (h : Holds a s) (hrd : s.qs.rdOffset = a.slot m)
    (hwr : s.qs.wrOffset = a.slot n) :
    getFreeWords s.qs + getNumWords s.qs = numWords s.shared.flags - 1 := by
  have hm := h.slot_lt m
  have hn := h.slot_lt n
  have hsize := numWords_lt s.shared.flags
  have hnum : getNumWords s.qs < numWords s.shared.flags := by
    rw [getNumWords, h.hostSize, hrd, hwr, bufDiff_eq hsize hm hn, Ring.gap]
    split <;> omega
  have hcap : getCapacity s.qs = numWords s.shared.flags - 1 := by
    rw [getCapacity, h.hostSize, sub32_of_le (by omega) (by omega)]
  rw [getFreeWords, hcap, sub32_of_le (by omega) (by omega)]
  omega

/-- The positions and the words, for either end. -/
theorem Holds.queue_safe {call : Option (Call × Program Request Answer Reply)} {m n k l : Nat}
    (h : Holds a s) (hrd : s.qs.rdOffset = a.slot m) (hwr : s.qs.wrOffset = a.slot n)
    (hslaveRd : s.slave.rd = a.slot k) (hslaveWr : s.slave.wr = a.slot l)
    (hused : (dir = .m2s → call = none) → s.used dir = s.written.length - s.received.length)
    (hview : s.View dir) (hsent : dir = .m2s → s.Sent call)
    (hreplied : ∀ c reply, call = some (c, .done reply) → Replied c reply) :
    QueueSafe dir a.start ⟨s, call⟩ where
  inOrder := h.received ▸ List.take_prefix _ _
  intact i hi hread := by
    rw [h.length_received] at hread
    have := h.word hi hread
    rwa [Ring.slot, h.size] at this
  offsets := by
    simp only [List.forall_mem_cons, hrd, hwr, h.sharedRd, h.sharedWr, hslaveRd, hslaveWr,
      h.slot_lt, List.not_mem_nil, IsEmpty.forall_iff, implies_true, and_self]
  balance := h.balance hrd hwr
  room := by
    have := h.valid.unread_lt
    rw [h.written, h.size] at this
    have hlen := h.length_received
    simp only
    omega
  used := hused
  view := hview
  sent := hsent
  replied := hreplied

theorem Reader.queueSafe {call : Option (Call × Program Request Answer Reply)} (ha : Reader a s)
    (hreplied : ∀ c reply, call = some (c, .done reply) → Replied c reply) :
    QueueSafe .s2m a.start ⟨s, call⟩ := by
  have hlen := ha.length_received
  have hroom := ha.valid.room
  have hread := Nat.le_trans ha.valid.freed_le ha.valid.returned_le
  have hlen' : a.written.length = s.written.length := by rw [ha.written]
  obtain ⟨d, hd, _, havail, _⟩ := ha.distance
  have hseen := ha.seen_le
  refine ha.queue_safe ha.hostRd ha.hostWr ha.slaveRd ha.slaveWr (fun _ => ?_) ?_ (by simp) hreplied
  · rw [World.used, ha.hostRd, ha.slaveWr,
      ha.diff_slot (by rw [hlen']; exact ha.consumed_le) (by omega)]
    omega
  · rw [World.View, havail]
    omega

theorem idle_queueSafe {start : Nat} (hs : Idle dir start s) : QueueSafe dir start ⟨s, none⟩ := by
  cases dir with
  | m2s =>
    obtain ⟨a, ha, rfl, hwr, hpub, hsent⟩ := hs
    have hlen := ha.length_received
    have hlen' : a.written.length = s.written.length := by rw [ha.written]
    have hroom := ha.valid.room
    have hfreed := ha.freed_le
    have hread := Nat.le_trans ha.valid.freed_le ha.valid.returned_le
    refine ha.queue_safe ha.hostRd hwr ha.slaveRd ha.slaveWr (fun _ => ?_) ?_ (fun _ => hsent.symm)
      (by simp)
    · rw [World.used, ha.slaveRd, hwr, hpub,
        ha.diff_slot (by rw [hlen']; exact ha.consumed_le) (by omega)]
      omega
    · rw [World.View, getNumWords, ha.hostRd, hwr, hpub, ha.diff_slot (by omega) (by omega), hsent]
      omega
  | s2m =>
    obtain ⟨a, ha, rfl⟩ := hs
    exact ha.queueSafe (by simp)

theorem during_queueSafe {start : Nat} {call : Call} {p : Program Request Answer Reply}
    (hs : During dir start call s)
    (hreplied : ∀ reply, p = .done reply → Replied call reply) :
    QueueSafe dir start ⟨s, some (call, p)⟩ := by
  have hreplied' : ∀ c reply, some (call, p) = some (c, .done reply) → Replied c reply := by
    intro c reply heq
    cases heq
    exact hreplied reply rfl
  cases dir with
  | m2s =>
    obtain ⟨buff, hcall, a, ha, rfl, hwr, hfreed, part, hpart, hwritten⟩ := hs
    have hlen := ha.length_received
    have hread := Nat.le_trans ha.valid.freed_le ha.valid.returned_le
    have hroom := ha.valid.room
    have hlen' : s.sent.length ≤ a.written.length := by
      rw [ha.written, hwritten, List.length_append]
      omega
    refine ha.queue_safe ha.hostRd hwr ha.slaveRd ha.slaveWr (fun h => ?_) ?_
      (fun _ => ⟨buff, part, hcall, hpart, hwritten⟩) hreplied'
    · cases h rfl
    · rw [World.View, getNumWords, ha.hostRd, hwr, ha.diff_slot hfreed (by omega)]
      omega
  | s2m =>
    obtain ⟨a, ha, rfl⟩ := hs
    exact ha.queueSafe hreplied'

theorem queueSafe_of_good {start : Nat} {c : QueueConfig}
    (h : c.Good (face dir) (client dir) (Idle dir start) (During dir start) Replied) :
    QueueSafe dir start c := by
  obtain ⟨t, _ | ⟨call, p⟩⟩ := c
  · exact idle_queueSafe h
  · have hsafe : Safe (face dir) (During dir start call) p _ t := h
    refine during_queueSafe hsafe.inv ?_
    rintro reply rfl
    exact hsafe.result.1

theorem good_of_initial {c : QueueConfig} (hs : s.Initial) (hrun : Run dir ⟨s, none⟩ c) :
    c.Good (face dir) (client dir) (Idle dir s.shared.rdOffset) (During dir s.shared.rdOffset)
      Replied := by
  have hstart : Config.Good (face dir) (client dir) (Idle dir s.shared.rdOffset)
      (During dir s.shared.rdOffset) Replied ⟨s, none⟩ := hs.idle dir
  exact good_of_run (stable_idle _ _) (fun _ _ => call_safe) hstart hrun

/-- Whatever the order of the driver's and the slave's steps, a queue stays safe at both ends. -/
theorem ring_safe (dir : Dir) (s : World) (c : QueueConfig) (hs : s.Initial)
    (hrun : Run dir ⟨s, none⟩ c) : QueueSafe dir s.shared.rdOffset c :=
  queueSafe_of_good (good_of_initial hs hrun)

/-- The driver's next `n` steps, with no step of the slave between them. -/
def drive (dir : Dir) : Nat → QueueConfig → QueueConfig
  | 0, c => c
  | n + 1, ⟨s, some (call, .ask o next)⟩ =>
    drive dir n ⟨(serve s o).1, some (call, next (serve s o).2)⟩
  | _ + 1, ⟨s, some (call, .done reply)⟩ => ⟨(client dir).finish s call reply, none⟩
  | _ + 1, c => c

theorem run_drive (dir : Dir) (n : Nat) (c : QueueConfig) : Run dir c (drive dir n c) := by
  induction n generalizing c with
  | zero => exact .refl
  | succ n ih =>
    obtain ⟨s, _ | ⟨call, _ | ⟨o, next⟩⟩⟩ := c
    · exact .refl
    · exact .single .finish
    · have hstep : Step (face dir) (client dir) ⟨s, some (call, .ask o next)⟩
          ⟨(serve s o).1, some (call, next (serve s o).2)⟩ := by
        cases dir <;> exact .serve
      exact .head hstep (ih _)

theorem run_look {c : QueueConfig} (h : Run .m2s ⟨s, none⟩ c) :
    Run .m2s ⟨s, none⟩ ⟨{ c.state with slave.wr := c.state.shared.wrOffset }, c.call⟩ :=
  h.tail (.env (.look c.state))

theorem run_take {c : QueueConfig} (h : Run .m2s ⟨s, none⟩ c)
    (hne : c.state.slave.rd ≠ c.state.slave.wr) :
    Run .m2s ⟨s, none⟩ ⟨{ c.state with
      slave.rd := c.state.next c.state.slave.rd,
      received := c.state.received ++ [c.state.words c.state.slave.rd] }, c.call⟩ :=
  h.tail (.env (.take c.state hne))

/-- An empty queue of three words whose offsets are at its last slot. -/
def lastSlot : World :=
  ⟨⟨196608, 4, 2, 2⟩, fun _ => 0, ⟨196608, 4, 2, 2⟩, ⟨2, 2⟩, [], [], []⟩

theorem lastSlot_initial : lastSlot.Initial := by
  refine ⟨rfl, rfl, rfl, rfl, ?_, ?_, ?_, rfl, rfl⟩ <;> decide +kernel

/-- Two words go into the last slot and the first, and come out. -/
theorem ring_safe_lastSlot : ∃ c, c.state.received = [7, 8] ∧ QueueSafe .m2s 2 c := by
  have hallowed : (client .m2s).allowed lastSlot (.write [7, 8]) := rfl
  have hwrite := (run_drive .m2s 6 _).head (@Step.start _ _ _ _ _ (face .m2s) _ _ _ hallowed)
  have hfirst := run_take (run_look hwrite) (by decide +kernel)
  have hsecond := run_take hfirst (by decide +kernel)
  exact ⟨_, by decide +kernel, ring_safe .m2s lastSlot _ lastSlot_initial hsecond⟩

end MangOH.Mt7697q
