import MangOH.Mt7697q.BusCalls

/-! The queues behind the registers: a run of the driver over the bus is one of each queue. -/
namespace MangOH.Mt7697q
open Interaction Relation Mt7697io

variable {ι : Type} {m : MemoryMap ι} {polls : Nat} {i : ι} {t u : Board ι} {s v : ι → World}
  {start : ι → Nat}

/-- Between two calls the host's copy of the control words is one of its queue. -/
theorem Idle.fits {dir : Dir} {n : Nat} {s : World} (h : Idle dir n s) :
    numWords s.qs.flags = numWords s.shared.flags ∧
      s.qs.rdOffset < numWords s.shared.flags ∧ s.qs.wrOffset < numWords s.shared.flags := by
  cases dir with
  | m2s =>
    obtain ⟨a, ha, -, hwr, -, -⟩ := h
    exact ⟨ha.hostSize, ha.hostRd ▸ ha.slot_lt _, hwr ▸ ha.slot_lt _⟩
  | s2m =>
    obtain ⟨a, ha, -⟩ := h
    exact ⟨ha.hostSize, ha.hostRd ▸ ha.slot_lt _, ha.hostWr ▸ ha.slot_lt _⟩

theorem Board.Initial.matches (h : t.Initial m polls) : t.Matches m polls (t.queue m) :=
  ⟨rfl, h.baseAddr, h.pace, h.misused⟩

variable [DecidableEq ι]

theorem queue_setHost (s : World) : (t.setHost i s).queue m = Function.update (t.queue m) i
    { t.queue m i with qs := s.qs, received := s.received, sent := s.sent } := by
  funext j
  by_cases hj : j = i
  · subst hj
    simp only [Board.queue, Board.setHost, Function.update_self]
  · simp only [Board.queue, Board.setHost, Function.update_of_ne hj]

theorem matches_finish {call : Call} {reply : Reply} (h : u.Matches m polls v)
    (hbase : reply.qs.baseAddr = m.baseAddr i) :
    ((busClient m polls).finish u (.queue i call) (some (.queue reply))).Matches m polls
      (Function.update v i ((client (m.dir i)).finish (v i) call reply)) := by
  obtain rfl := h.queue
  have hqueue := queue_setHost (m := m) (t := u) (i := i)
    ((client (m.dir i)).finish (u.queue m i) call reply)
  refine ⟨hqueue.symm, fun j => ?_, h.pace, h.misused⟩
  change (Function.update u.qs i reply.qs j).baseAddr = m.baseAddr j
  by_cases hj : j = i
  · rw [hj, Function.update_self, hbase]
  · rw [Function.update_of_ne hj, h.baseAddr]

/-- The queue that a call is on. -/
def BusCall.owner : BusCall ι → Option (ι × Call)
  | .queue i call => some (i, call)
  | .getS2mMbx => none

/-- The driver returns what the call on the queue returns, and never waits without end. -/
def Tells (r : Option BusReply) : Option Reply → Prop
  | some reply => r = some (.queue reply)
  | none => r ≠ none

theorem queue_refines {call : Call} (h : t.Matches m polls s) (hready : t.regs.Ready)
    (hidle : ∀ i, Idle (m.dir i) (start i) (s i)) :
    BusRefines m polls i ((busClient m polls).program t (.queue i call))
      ((client (m.dir i)).program (s i) call)
      (fun r reply u v => Tells r (some reply) ∧
        ((busClient m polls).finish u (.queue i call) r).regs.Ready ∧
        ((busClient m polls).finish u (.queue i call) r).Matches m polls
          (Function.update v i ((client (m.dir i)).finish (v i) call reply))) t s := by
  have hqs : m.Fits i (s i).qs := by
    obtain ⟨hsize, hrd, hwr⟩ := (hidle i).fits
    obtain rfl := h.queue
    exact ⟨h.baseAddr i, hsize, hrd, hwr⟩
  have hhost : t.qs i = (s i).qs := by
    rw [h.queue]
    rfl
  change BusRefines m polls i ((callProgram polls (m.ch i) (t.qs i) call).bind fun r =>
    .done (r.map BusReply.queue)) _ _ t s
  rw [hhost]
  refine Refines.map (call_refines call h hready hqs) fun r reply u v hR hr => ?_
  obtain ⟨rfl, hbase, hready'⟩ := hr
  exact ⟨rfl, hready', matches_finish hR hbase⟩

theorem mbx_silent (h : t.Matches m polls s) (hready : t.regs.Ready) :
    BusSilent m polls OnBus.getS2mMbx (fun r u _ => ∃ a, r = some (.ok a) ∧ u.regs = t.regs)
      t s := by
  have hread : BusSilent m polls (read16 slaveRegMailboxS2M)
      (fun r u _ => ∃ a, r = some (.ok a) ∧ True ∧ u.regs = t.regs) t s :=
    read16_silent h hready.2 fun _ _ => ⟨_, rfl, trivial⟩
  have hrd : BusSilent m polls rdS2mMbx (fun r u _ => ∃ a, r = some (.ok a) ∧ u.regs = t.regs)
      t s := by
    refine BusSilent.andThen hread fun value u v hR hu => ⟨hR, fun w x hwx => ?_⟩
    exact ⟨_, rfl, (regs_of_later hwx).trans hu.2⟩
  refine BusSilent.andThen hrd fun mbox u v hR hu => ?_
  refine BusSilent.andThen (write16_silent hR (hu ▸ hready.2) (r := t.regs) ?_)
    fun _ w x hx hw => ⟨hx, fun y z hyz => ⟨_, rfl, (regs_of_later hyz).trans hw⟩⟩
  -- the mailbox is cleared, which no queue sees
  intro w x hx hw
  exact ⟨⟨hx.queue, hx.baseAddr, hx.pace, hx.misused⟩, hw.trans hu⟩

theorem getS2mMbx_silent (h : t.Matches m polls s) (hready : t.regs.Ready) :
    BusSilent m polls ((busClient m polls).program t .getS2mMbx)
      (fun r u v => Tells r none ∧ ((busClient m polls).finish u .getS2mMbx r).regs.Ready ∧
        ((busClient m polls).finish u .getS2mMbx r).Matches m polls v) t s := by
  refine Silent.bind (mbx_silent h hready) fun r u v hR hr => ?_
  obtain ⟨a, rfl, hu⟩ := hr
  refine ⟨hR, fun w x hwx => ⟨?_, ?_, hwx.related⟩⟩
  · exact Option.some_ne_none _
  · exact regs_of_later hwx ▸ hu ▸ hready

/-! ### Runs -/

/-- The call on this queue that is under way. -/
def callOn (i : ι) (c : BusConfig ι) : Option Call :=
  match c.call with
  | some (.queue j call, _) => if j = i then some call else none
  | _ => none

/-- The safety of all queues whose first words went to the slots `start`. -/
structure BoardSafe (m : MemoryMap ι) (start : ι → Nat) (c : BusConfig ι) : Prop where
  /-- No register of a command is used while the slave is busy with one. -/
  misused : c.state.misused = false
  queues : ∀ i, ∃ call, call.map Prod.fst = callOn i c ∧
    QueueSafe (m.dir i) (start i) ⟨c.state.queue m i, call⟩
  /-- No call waits without end. -/
  returns : ∀ call, c.call ≠ some (call, .done none)
  replied : ∀ i call r, c.call = some (.queue i call, .done r) →
    ∃ reply, r = some (.queue reply) ∧ Replied call reply

/-- What each queue sees of a run over the bus. -/
theorem exists_queue_runs (ht : t.Initial m polls) {c : BusConfig ι}
    (hrun : BusRun m polls ⟨t, none⟩ c) :
    ∃ d : ι → QueueConfig, (∀ i, Run (m.dir i) ⟨t.queue m i, none⟩ (d i)) ∧
      Related (busFace m polls) (fun i => face (m.dir i)) (Board.Matches m polls)
        (busClient m polls) (fun i => client (m.dir i)) BusCall.owner (fun u => u.regs.Ready)
        (fun _ => Tells) c d := by
  refine exists_run (I := fun i => Idle (m.dir i) (t.queue m i).shared.rdOffset)
    (fun _ _ _ hR hstep => exists_later hR hstep) ?_ ?_ ?_ ?_ (.idle ht.matches ht.ready) hrun
  · intro u v hready hstep
    exact hstep.regs ▸ hready
  · rintro i ⟨s, call⟩ hrun hnone
    cases hnone
    exact good_of_initial (ht.queue i) hrun
  · rintro u s call' i call hR hready hidle hallowed howner
    cases call' with
    | getS2mMbx => cases howner
    | queue j call' =>
      cases howner
      refine ⟨?_, queue_refines hR hready hidle⟩
      obtain rfl := hR.queue
      exact hallowed
  · rintro u s call' hR hready - howner
    cases call' with
    | queue j call => cases howner
    | getS2mMbx => exact getS2mMbx_silent hR hready

/-- Whatever the order of the steps of the driver and of the slave, who share the registers, every
queue stays safe at both ends. -/
theorem board_safe (t : Board ι) (c : BusConfig ι) (ht : t.Initial m polls)
    (hrun : BusRun m polls ⟨t, none⟩ c) :
    BoardSafe m (fun i => (t.queue m i).shared.rdOffset) c := by
  obtain ⟨d, hd, hrelated⟩ := exists_queue_runs ht hrun
  have hsafe : ∀ i, QueueSafe (m.dir i) (t.queue m i).shared.rdOffset (d i) := fun i =>
    queueSafe_of_good (good_of_initial (ht.queue i) (hd i))
  cases hrelated with
  | @idle u s hR hready =>
    obtain rfl := hR.queue
    exact ⟨hR.misused, fun i => ⟨none, rfl, hsafe i⟩, by simp, by simp⟩
  | @own u s call' q i call p howner h =>
    have hR := h.related
    obtain rfl := hR.queue
    cases call' with
    | getS2mMbx => cases howner
    | queue j call' =>
      cases howner
      have hdone : ∀ r, q = .done r → ∃ reply, r = some (.queue reply) ∧ p = .done reply := by
        rintro r rfl
        obtain ⟨-, reply, rfl, hQ⟩ := h
        exact ⟨reply, (hQ u _ (.refl hR)).1, rfl⟩
      refine ⟨hR.misused, fun j => ⟨_, ?_, hsafe j⟩, ?_, ?_⟩
      · by_cases hj : i = j
        · subst hj
          simp [callOn]
        · simp [callOn, hj, Ne.symm hj]
      · rintro call'' heq
        cases heq
        obtain ⟨reply, hreply, -⟩ := hdone none rfl
        cases hreply
      · rintro j call' r heq
        cases heq
        obtain ⟨reply, rfl, rfl⟩ := hdone r rfl
        refine ⟨reply, rfl, (hsafe i).replied call reply ?_⟩
        exact Function.update_self i (some (call, Program.done reply)) fun _ => none
  | @other u s call' q howner h =>
    obtain rfl := h.related.queue
    cases call' with
    | queue j call => cases howner
    | getS2mMbx =>
      refine ⟨h.related.misused, fun i => ⟨none, rfl, hsafe i⟩, ?_, by simp⟩
      rintro call heq
      cases heq
      exact (h.2 u _ (.refl h.related)).1 rfl

/-- Two queues of three words, to the slave and from it. -/
def twoQueues : MemoryMap Bool where
  ch i := if i then 3 else 0
  dir i := if i then .s2m else .m2s
  flags _ := 0x30000
  baseAddr i := if i then 0x2000 else 0x1000
  ch_injective := by
    unfold Function.Injective
    decide
  fits := by decide
  clear := by decide
  apart := by decide

/-- They are empty, and a command is done after the second poll. -/
def emptyBoard : Board Bool where
  mem _ := 0
  regs := ⟨0, 0, 0, none, 0⟩
  pace := (1, 1)
  s2mMbx := 0
  misused := false
  qs i := ⟨0x30000, twoQueues.baseAddr i, 0, 0⟩
  slave _ := ⟨0, 0⟩
  written _ := []
  received _ := []
  sent _ := []

theorem emptyBoard_initial : emptyBoard.Initial twoQueues 4 where
  queue i := by
    refine ⟨rfl, rfl, rfl, rfl, ?_, ?_, ?_, rfl, rfl⟩ <;> revert i <;> decide +kernel
  baseAddr _ := rfl
  ready := ⟨rfl, rfl⟩
  pace := by decide
  misused := rfl

/-- The board after a call that nothing else comes between. -/
def Board.after (m : MemoryMap ι) (polls : Nat) (t : Board ι) (call : BusCall ι) : Board ι :=
  let r := ((busClient m polls).program t call).run (busFace m polls).serve t
  (busClient m polls).finish r.2 call r.1

theorem run_after {call : BusCall ι} (h : (busClient m polls).allowed t call) :
    BusRun m polls ⟨t, none⟩ ⟨t.after m polls call, none⟩ :=
  run_call h

theorem allowed_pullWrPtr (i : ι) (h : m.dir i = .s2m) :
    (busClient m polls).allowed t (.queue i .pullWrPtr) :=
  h

theorem allowed_read (i : ι) (num : Nat) (hdir : m.dir i = .s2m)
    (hnum : num ≤ getNumWords (t.qs i)) :
    (busClient m polls).allowed t (.queue i (.read num)) :=
  ⟨hdir, hnum⟩

/-- Two words are written to the slave. -/
def writtenBoard : Board Bool := emptyBoard.after twoQueues 4 (.queue false (.write [7, 8]))

/-- Two words go to the slave, which takes the first and sends one of its own, which the driver
reads. -/
theorem board_safe_twoQueues : ∃ c, c.state.received false = [7] ∧ c.state.received true = [5] ∧
    BoardSafe twoQueues (fun _ => 0) c := by
  have hwrite : BusRun twoQueues 4 ⟨emptyBoard, none⟩ ⟨writtenBoard, none⟩ := run_after rfl
  have hlook := hwrite.tail (.env (.lookWr writtenBoard false rfl))
  have htake := hlook.tail (.env (.take _ false rfl (by decide +kernel) (by decide +kernel)))
  have hput := htake.tail (.env (.put _ true 5 rfl (by decide +kernel) (by decide +kernel)))
  have hgive := hput.tail (.env (.giveWr _ true 1 rfl (by decide +kernel)))
  have hpull := hgive.trans (run_after (allowed_pullWrPtr true rfl))
  have hread := hpull.trans (run_after (allowed_read true 1 rfl (by decide +kernel)))
  refine ⟨_, ?_, ?_, board_safe emptyBoard _ emptyBoard_initial hread⟩
  · decide +kernel
  · decide +kernel

end MangOH.Mt7697q
