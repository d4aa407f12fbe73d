import MangOH.Mt7697q.FailedWrites

/-! The writes that the driver turns down, and its note that a writer waits for room. -/
namespace MangOH.Mt7697q
open Interaction Relation

variable {a : Ring Word} {s t : World} {buff : List Word} {calls : List Attempt}

/-- `mt7697q_write` with the queue's `blocked_writer`. -/
def writeNoting (blockedWriter : Bool) (qs : QueueData) (buff : List Word) :
    Program Request Answer (Reply × Bool) :=
  let avail := getFreeWords qs
  if avail < buff.length then
    (pullRdPtr qs).bind fun
      | .error e => .done (⟨.error e, [], qs⟩, blockedWriter)
      | .ok qs =>
        if avail < buff.length then .done (⟨.error .again, [], qs⟩, true)
        else (writeWords qs buff).bind fun r => .done (r, blockedWriter)
  else (writeWords qs buff).bind fun r => .done (r, blockedWriter)

/-- Without the note it is `write`. -/
theorem writeNoting_reply (blockedWriter : Bool) (qs : QueueData) (buff : List Word) :
    ((writeNoting blockedWriter qs buff).bind fun r => .done r.1) = write qs buff := by
  have hdrop : ∀ p : Program Request Answer Reply,
      ((p.bind fun r => .done (r, blockedWriter)).bind fun r => .done r.1) = p := by
    intro p
    induction p with
    | done r => rfl
    | ask o next ih => exact congrArg (Program.ask o) (funext fun x => ih x)
  unfold writeNoting write
  simp only
  split
  · refine congrArg (Program.ask Request.rdOffset) (funext fun x => ?_)
    cases x <;> rfl
  · exact hdrop _

/-- The free words that the host would count with the read offset in the slave's memory. -/
def World.freshFree (s : World) : Nat :=
  getFreeWords { s.qs with rdOffset := u16 s.shared.rdOffset }

/-- A call refuses a message if and only if the slave has no room for it, and otherwise writes all
of it behind the words that are there. -/
structure Prompt (s : World) (buff : List Word) (r : Reply × Bool) (t : World) : Prop where
  refuses : r.1.ret = .error .again ∧ r.2 = true ↔ s.freshFree < buff.length
  writes : ¬ s.freshFree < buff.length → r.1.ret = .ok buff.length ∧
    t.written = s.written ++ buff ∧ ∀ i, (h : i < buff.length) →
      t.words ((s.qs.wrOffset + i) % numWords s.qs.flags) = buff[i]

/-- The run of a call whose first transfer finds the slave's memory as in `s`. -/
def World.WritesPromptly (s : World) (blockedWriter : Bool) (buff : List Word) : Prop :=
  Prompt s buff ((writeNoting blockedWriter s.qs buff).run serve s).1
    ((writeNoting blockedWriter s.qs buff).run serve s).2

/-- A stale read offset hides room; it never shows room that is not there. -/
theorem Standing.freeWords_le (h : Standing a s) : getFreeWords s.qs ≤ s.freshFree := by
  have hle := h.valid.freed_le
  have hsize := h.size_lt
  have hslot := Ring.slot_lt h.valid a.returned
  have hrd : u16 s.shared.rdOffset = a.slot a.returned := by
    rw [h.sharedRd, u16_of_lt (by omega)]
  have hfresh : Writer (a.learn a.returned)
      { s with qs := { s.qs with rdOffset := u16 s.shared.rdOffset } } :=
    ⟨⟨h.valid.learn hle le_rfl, h.size, h.hostSize, h.slots, h.written, h.received, h.sharedRd,
      h.sharedWr⟩, hrd, h.slaveRd, h.slaveWr⟩
  rw [h.toWriter.freeWords h.hostWr, World.freshFree, hfresh.freeWords h.hostWr]
  change a.size - 1 - (s.written.length - a.freed) ≤
    a.size - 1 - (s.written.length - a.returned)
  omega

/-- The run of a call that has room by the host's own count. -/
theorem Standing.run_writeWords (h : Standing a s) (hroom : buff.length ≤ getFreeWords s.qs) :
    ((writeWords s.qs buff).run serve s).1.ret = .ok buff.length ∧
      Writing a s (s.written.length + buff.length) buff ((writeWords s.qs buff).run serve s).2 := by
  have hrun := (writeWords_failing (h.room hroom) none).run
  rw [Program.failing_none, Program.run_bind] at hrun
  cases hrun with
  | cut hfault =>
    obtain ⟨x, hx, -⟩ := hfault
    cases hx
  | untold hfault =>
    obtain ⟨x, hx, -⟩ := hfault
    cases hx
  | told _ hret hqs hu => exact ⟨hret, hu⟩

theorem run_received {α : Type} (p : Program Request Answer α) (s : World) :
    (p.run serve s).2.received = s.received := by
  induction p generalizing s with
  | done a => rfl
  | ask o next ih =>
    refine (ih _ _).trans ?_
    cases o <;> rfl

theorem Standing.prompt (h : Standing a s) (blockedWriter : Bool)
    (hroom : buff.length ≤ getFreeWords s.qs) : s.WritesPromptly blockedWriter buff := by
  have hle := h.freeWords_le
  obtain ⟨hret, b, hb, hsize, hstart, -, -, -, -, -, hwritten⟩ := h.run_writeWords hroom
  have hrun : (writeNoting blockedWriter s.qs buff).run serve s =
      ((((writeWords s.qs buff).run serve s).1, blockedWriter),
        ((writeWords s.qs buff).run serve s).2) := by
    unfold writeNoting
    simp only
    rw [if_neg (by omega), Program.run_bind]
    rfl
  unfold World.WritesPromptly
  rw [hrun]
  refine ⟨⟨fun hrefused => ?_, fun hfull => absurd hfull (by omega)⟩, fun _ => ⟨hret, hwritten, ?_⟩⟩
  · cases hret.symm.trans hrefused.1
  · intro i hi
    have hlt : s.written.length + i < ((writeWords s.qs buff).run serve s).2.written.length := by
      rw [hwritten, List.length_append]
      omega
    have hconsumed : b.consumed ≤ s.written.length + i := by
      rw [← hb.length_received, run_received, h.length_received]
      exact Nat.le_trans h.consumed_le (Nat.le_add_right _ _)
    have hword := hb.word hlt hconsumed
    simp only [hwritten, List.getElem_append_right (Nat.le_add_right _ _),
      Nat.add_sub_cancel_left] at hword
    rw [← hword, slot_congr hsize hstart, h.hostSize, ← h.size, h.hostWr, Ring.slot, Ring.slot,
      Nat.mod_add_mod, Nat.add_assoc]

/-- A call whose own count finds no room looks at the slave's offset, and refuses all the same. -/
theorem run_writeNoting_full (blockedWriter : Bool) (hfull : getFreeWords s.qs < buff.length) :
    (writeNoting blockedWriter s.qs buff).run serve s =
      ((⟨.error .again, [], { s.qs with rdOffset := u16 s.shared.rdOffset }⟩, true), s) := by
  unfold writeNoting
  simp only
  rw [if_pos hfull, Program.run_bind]
  change ((if getFreeWords s.qs < buff.length then _ else _ : Program Request Answer _).run _ _) = _
  rw [if_pos hfull]
  rfl

theorem Standing.prompt_iff (h : Standing a s) (blockedWriter : Bool) (buff : List Word) :
    s.WritesPromptly blockedWriter buff ↔
      buff.length ≤ getFreeWords s.qs ∨ s.freshFree < buff.length := by
  by_cases hroom : buff.length ≤ getFreeWords s.qs
  · exact iff_of_true (h.prompt blockedWriter hroom) (.inl hroom)
  · unfold World.WritesPromptly
    rw [run_writeNoting_full blockedWriter (by omega)]
    refine ⟨fun hprompt => .inr (hprompt.refuses.mp ⟨rfl, rfl⟩), fun hor => ?_⟩
    have hfull := hor.resolve_left hroom
    exact ⟨iff_of_true ⟨rfl, rfl⟩ hfull, fun hnot => absurd hfull hnot⟩

/-- In every state between two calls, whichever transfers have failed before, the next call is
prompt if and only if the host's stale read offset and the slave's agree about the room. -/
theorem writesPromptly_iff (hs : s.Initial) (hrun : Attempts ⟨s, none⟩ calls ⟨t, none⟩)
    (blockedWriter : Bool) (buff : List Word) :
    t.WritesPromptly blockedWriter buff ↔
      buff.length ≤ getFreeWords t.qs ∨ t.freshFree < buff.length := by
  obtain ⟨a, ha⟩ := attempts_standing hs hrun
  exact ha.prompt_iff blockedWriter buff

/-- A full queue of three words, of which one stays free. -/
def fullQueue : World :=
  ⟨⟨196608, 4, 0, 2⟩, fun _ => 0, ⟨196608, 4, 0, 2⟩, ⟨0, 2⟩, [0, 0], [], [0, 0]⟩

/-- The slave has read it all and said so. -/
def drainedQueue : World :=
  { fullQueue with slave.rd := 2, received := [0, 0], shared.rdOffset := 2 }

theorem fullQueue_initial : fullQueue.Initial := by
  refine ⟨rfl, rfl, rfl, rfl, ?_, ?_, ?_, rfl, rfl⟩ <;> decide +kernel

theorem attempts_drainedQueue : Attempts ⟨fullQueue, none⟩ [] ⟨drainedQueue, none⟩ := by
  have htake : Attempts ⟨fullQueue, none⟩ [] ⟨fullQueue, none⟩ := .refl
  have hfirst := htake.tail (.env (.take _ (by decide +kernel)))
  have hsecond := hfirst.tail (.env (.take _ (by decide +kernel)))
  exact hsecond.tail (.env (.give _))

theorem writesPromptly_drained :
    fullQueue.Initial ∧ Attempts ⟨fullQueue, none⟩ [] ⟨drainedQueue, none⟩ ∧
      (drainedQueue.WritesPromptly false [7] ↔
        [(7 : Word)].length ≤ getFreeWords drainedQueue.qs ∨ drainedQueue.freshFree < 1) :=
  ⟨fullQueue_initial, attempts_drainedQueue,
    writesPromptly_iff fullQueue_initial attempts_drainedQueue false [7]⟩

/-- A message for an empty queue is refused. -/
theorem writesPromptly_fails :
    ¬ ∀ s t calls, s.Initial → Attempts ⟨s, none⟩ calls ⟨t, none⟩ → ∀ blockedWriter buff,
      buff.length ≤ getCapacity t.qs → t.WritesPromptly blockedWriter buff := by
  intro h
  have hprompt := h _ _ [] fullQueue_initial attempts_drainedQueue false [7] (by decide +kernel)
  have hfull : drainedQueue.freshFree < 1 := hprompt.refuses.mp (by decide +kernel)
  exact absurd hfull (by decide +kernel)

end MangOH.Mt7697q
