import MangOH.Lib.Machine
import MangOH.Mt7697q.Handlers

/-! The serial transport between an open and its close: the receive task and the closing task. -/
namespace MangOH.Mt7697serial
open Lib
open Mt7697q (RspHdr cmdGrpUart)

/-- Where `mt7697_uart_rx_work` stands. -/
inductive RxTask
  | scheduled
  /-- in `mt7697_uart_rx_poll` -/
  | polling
  /-- in `mt7697_uart_read` -/
  | reading
  /-- at the check of `close`, after a frame of the UART group -/
  | checking
  /-- in `rx_fcn`, which reads the rest of the frame -/
  | dispatching
  /-- at `cleanup` -/
  | ending
  | ended
deriving DecidableEq

/-- Whether the task has a read before it. -/
def RxTask.canRead : RxTask → Bool
  | .ending | .ended => false
  | _ => true

/-- Where `mt7697_uart_close` stands. -/
inductive Closer
  | idle
  /-- past the check of the file -/
  | checked
  /-- in `mt7697_uart_snd_shutdown_req` -/
  | sending
  /-- in `wait_event_interruptible` -/
  | waiting
  /-- before `filp_close` -/
  | closing
deriving DecidableEq

inductive Call
  | rxFcn (hdr : RspHdr)
  /-- a `filp_close` without an error -/
  | closed
deriving DecidableEq

structure Uart where
  /-- whether `fd_hndl` is a file -/
  isOpen : Bool := true
  close : Bool := false
  rx : RxTask := .scheduled
  closer : Closer := .idle
  /-- how often the file is released -/
  closes : Nat := 0
  calls : List Call := []
deriving DecidableEq

/-- The state in which `mt7697_uart_open` succeeds. -/
def uartOpened : Uart := {}

inductive UartEvent
  | rxWork
  | rxPoll (ready : Bool)
  /-- `none` is a read that fails or ends early -/
  | rxRead (hdr : Option RspHdr)
  | rxCheck
  | rxFcnDone
  | rxCleanup
  | close
  | setClose
  | sndShutdownReq (sent : Bool)
  | closeWake
  /-- a signal to the task in `mt7697_uart_close` -/
  | signal
  | filpClose (success : Bool)

/-- `filp_close` releases the file whatever it returns. -/
def filpClose (s : Uart) (success : Bool) : Uart :=
  let s := { s with closer := .idle, closes := s.closes + 1 }
  if success then { s with isOpen := false, calls := s.calls ++ [.closed] } else s

/-- What the task does with a frame it has read. -/
def rxFrame (s : Uart) (hdr : RspHdr) : Uart :=
  if hdr.grp = cmdGrpUart then { s with rx := .checking }
  else { s with rx := .dispatching, calls := s.calls ++ [.rxFcn hdr] }

def uartStep (s : Uart) : UartEvent → Option Uart
  | .rxWork => if s.rx = .scheduled then some { s with rx := .polling } else none
  | .rxPoll ready =>
    -- without a file the poll is a fault of the kernel
    if s.rx = .polling ∧ s.isOpen then
      some { s with rx := if ready then .reading else .ending }
    else none
  | .rxRead hdr =>
    if s.rx = .reading then
      match hdr with
      | some hdr => if s.isOpen then some (rxFrame s hdr) else some { s with rx := .ending }
      | none => some { s with rx := .ending }
    else none
  | .rxCheck =>
    if s.rx = .checking then some { s with rx := if s.close then .ending else .polling } else none
  | .rxFcnDone => if s.rx = .dispatching then some { s with rx := .polling } else none
  | .rxCleanup => if s.rx = .ending then some { s with rx := .ended, close := false } else none
  | .close =>
    if s.closer = .idle then
      if s.isOpen then some { s with closer := .checked } else some s
    else none
  | .setClose =>
    if s.closer = .checked then some { s with closer := .sending, close := true } else none
  | .sndShutdownReq sent =>
    if s.closer = .sending then
      some { s with closer := if s.isOpen ∧ sent then .waiting else .idle }
    else none
  | .closeWake =>
    if s.closer = .waiting ∧ s.close = false then some { s with closer := .closing } else none
  -- the result of the wait is not looked at
  | .signal => if s.closer = .waiting then some { s with closer := .closing } else none
  | .filpClose success => if s.closer = .closing then some (filpClose s success) else none

def uartMachine : Machine Uart UartEvent where
  Init s := s = uartOpened
  Step s e t := uartStep s e = some t

/-- The file is closed once at most, with no read of the task to come, and no frame is dispatched
after it. -/
structure UartOk (s : Uart) : Prop where
  closes_le : s.closes ≤ 1
  not_canRead : 0 < s.closes → s.rx.canRead = false
  quiet : s.calls.Pairwise fun earlier later => earlier = .closed → ∀ hdr, later ≠ .rxFcn hdr

/-- A signal ends the wait only when the task has no read before it, and `mt7697_uart_close` is
not called again after a `filp_close` with an error. -/
def uartHealthy (s : Uart) : UartEvent → Prop
  | .signal => s.rx.canRead = false
  | .close => s.isOpen → s.closes = 0
  | _ => True

structure UartInv (s : Uart) : Prop where
  /-- the flag is cleared behind the closing task by the end of the receive task only -/
  cleared : s.closer = .sending ∨ s.closer = .waiting → s.close = false → s.rx = .ended
  closing : s.closer = .closing → s.rx.canRead = false
  unclosed : s.closer ≠ .idle → s.closes = 0
  ok : UartOk s
  closed_mem : .closed ∈ s.calls → 0 < s.closes

section Steps

variable {s t : Uart} {e : UartEvent}

theorem uartOpened_inv : UartInv uartOpened where
  cleared := by simp [uartOpened]
  closing := by simp [uartOpened]
  unclosed := by simp [uartOpened]
  ok := ⟨by simp [uartOpened], by simp [uartOpened], .nil⟩
  closed_mem := by simp [uartOpened]

/-- A move of the receive task keeps the invariant when it gives no read back and clears the flag
only at its end. -/
theorem UartInv.moveRx (h : UartInv s) {rx : RxTask} {close : Bool}
    (hread : rx.canRead = true → s.rx.canRead = true)
    (hclose : close = s.close ∧ s.rx ≠ .ended ∨ close = false ∧ rx = .ended) :
    UartInv { s with rx, close } where
  cleared := by
    intro hcloser hfalse
    rcases hclose with ⟨rfl, hne⟩ | ⟨-, rfl⟩
    · exact (hne (h.cleared hcloser hfalse)).elim
    · rfl
  closing := fun hcloser => by
    have := h.closing hcloser
    grind
  unclosed := h.unclosed
  ok := ⟨h.ok.closes_le, fun hpos => by have := h.ok.not_canRead hpos; grind, h.ok.quiet⟩
  closed_mem := h.closed_mem

/-- A frame is dispatched only before the file is closed. -/
theorem UartInv.dispatch (h : UartInv s) (hrx : s.rx = .reading) (hdr : RspHdr) :
    UartInv { s with rx := .dispatching, calls := s.calls ++ [.rxFcn hdr] } := by
  have hcloses : s.closes = 0 := by
    refine Nat.eq_zero_of_not_pos fun hpos => ?_
    have := h.ok.not_canRead hpos
    simp [hrx, RxTask.canRead] at this
  have hopen : .closed ∉ s.calls := fun hmem => by have := h.closed_mem hmem; omega
  have hmove := @UartInv.moveRx _ h .dispatching s.close (by simp [hrx, RxTask.canRead])
    (.inl ⟨rfl, by simp [hrx]⟩)
  refine ⟨hmove.cleared, hmove.closing, h.unclosed, ⟨h.ok.closes_le, hmove.ok.not_canRead, ?_⟩, ?_⟩
  · rw [List.pairwise_append]
    refine ⟨h.ok.quiet, .cons (by simp) .nil, ?_⟩
    rintro _ hmem _ - rfl
    exact (hopen hmem).elim
  · intro hmem
    exact (hopen (by simpa using hmem)).elim

theorem UartInv.rxFrame (h : UartInv s) (hrx : s.rx = .reading) (hdr : RspHdr) :
    UartInv (rxFrame s hdr) := by
  unfold Mt7697serial.rxFrame
  split
  · exact h.moveRx (by simp [hrx, RxTask.canRead]) (.inl ⟨rfl, by simp [hrx]⟩)
  · exact h.dispatch hrx hdr

/-- The file is closed behind the last read. -/
theorem UartInv.filpClose (h : UartInv s) (hcloser : s.closer = .closing) (success : Bool) :
    UartInv (filpClose s success) := by
  have hread := h.closing hcloser
  have hcloses := h.unclosed (by simp [hcloser])
  unfold Mt7697serial.filpClose
  cases success with
  | false =>
    exact ⟨by simp, by simp, by simp, ⟨by simp [hcloses], fun _ => hread, h.ok.quiet⟩, by simp⟩
  | true =>
    refine ⟨by simp, by simp, by simp, ⟨by simp [hcloses], fun _ => hread, ?_⟩, by simp⟩
    rw [if_pos rfl, List.pairwise_append]
    refine ⟨h.ok.quiet, List.pairwise_singleton _ _, ?_⟩
    rintro _ - _ hmem - hdr rfl
    simp at hmem

/-- A move of the closing task that keeps the file and its flag. -/
theorem UartInv.moveCloser (h : UartInv s) {closer : Closer}
    (hclosing : closer = .closing → s.rx.canRead = false)
    (hfrom : closer ≠ .idle → s.closer ≠ .idle ∨ s.closes = 0)
    (hcleared : closer = .sending ∨ closer = .waiting → s.close = false → s.rx = .ended) :
    UartInv { s with closer } where
  cleared := hcleared
  closing := hclosing
  unclosed := fun hne => (hfrom hne).elim h.unclosed id
  ok := ⟨h.ok.closes_le, h.ok.not_canRead, h.ok.quiet⟩
  closed_mem := h.closed_mem

theorem UartInv.setClose (h : UartInv s) (hcloser : s.closer = .checked) :
    UartInv { s with closer := .sending, close := true } where
  cleared := by simp
  closing := by simp
  unclosed := fun _ => h.unclosed (by simp [hcloser])
  ok := ⟨h.ok.closes_le, h.ok.not_canRead, h.ok.quiet⟩
  closed_mem := h.closed_mem

theorem UartInv.step (h : UartInv s) (hok : uartHealthy s e) (hstep : uartStep s e = some t) :
    UartInv t := by
  cases e with
  | rxWork =>
    obtain ⟨hrx, ⟨⟩⟩ := Option.ite_none_right_eq_some.mp hstep
    exact h.moveRx (by simp [hrx, RxTask.canRead]) (.inl ⟨rfl, by simp [hrx]⟩)
  | rxPoll ready =>
    obtain ⟨⟨hrx, -⟩, ⟨⟩⟩ := Option.ite_none_right_eq_some.mp hstep
    exact h.moveRx (by simp [hrx, RxTask.canRead]) (.inl ⟨rfl, by simp [hrx]⟩)
  | rxRead hdr =>
    obtain ⟨hrx, hstep⟩ := Option.ite_none_right_eq_some.mp hstep
    have hend : UartInv { s with rx := .ending } :=
      h.moveRx (by simp [RxTask.canRead]) (.inl ⟨rfl, by simp [hrx]⟩)
    cases hdr with
    | none =>
      cases hstep
      exact hend
    | some hdr =>
      dsimp only at hstep
      split at hstep
      · cases hstep
        exact h.rxFrame hrx hdr
      · cases hstep
        exact hend
  | rxCheck =>
    obtain ⟨hrx, ⟨⟩⟩ := Option.ite_none_right_eq_some.mp hstep
    exact h.moveRx (by simp [hrx, RxTask.canRead]) (.inl ⟨rfl, by simp [hrx]⟩)
  | rxFcnDone =>
    obtain ⟨hrx, ⟨⟩⟩ := Option.ite_none_right_eq_some.mp hstep
    exact h.moveRx (by simp [hrx, RxTask.canRead]) (.inl ⟨rfl, by simp [hrx]⟩)
  | rxCleanup =>
    obtain ⟨-, ⟨⟩⟩ := Option.ite_none_right_eq_some.mp hstep
    exact h.moveRx (by simp [RxTask.canRead]) (.inr ⟨rfl, rfl⟩)
  | close =>
    obtain ⟨-, hstep⟩ := Option.ite_none_right_eq_some.mp hstep
    split at hstep
    · next hopen =>
      cases hstep
      exact h.moveCloser (by simp) (fun _ => .inr (hok hopen)) (by simp)
    · cases hstep
      exact h
  | setClose =>
    obtain ⟨hcloser, ⟨⟩⟩ := Option.ite_none_right_eq_some.mp hstep
    exact h.setClose hcloser
  | sndShutdownReq sent =>
    obtain ⟨hcloser, ⟨⟩⟩ := Option.ite_none_right_eq_some.mp hstep
    exact h.moveCloser (by split <;> simp) (fun _ => .inl (by simp [hcloser]))
      fun _ => h.cleared (.inl hcloser)
  | closeWake =>
    obtain ⟨⟨hcloser, hclose⟩, ⟨⟩⟩ := Option.ite_none_right_eq_some.mp hstep
    have hrx := h.cleared (.inr hcloser) hclose
    exact h.moveCloser (fun _ => by rw [hrx]; rfl) (fun _ => .inl (by simp [hcloser])) (by simp)
  | signal =>
    obtain ⟨hcloser, ⟨⟩⟩ := Option.ite_none_right_eq_some.mp hstep
    exact h.moveCloser (fun _ => hok) (fun _ => .inl (by simp [hcloser])) (by simp)
  | filpClose success =>
    obtain ⟨hcloser, ⟨⟩⟩ := Option.ite_none_right_eq_some.mp hstep
    exact h.filpClose hcloser success

/-- The handshake holds while no signal cuts a wait short and no failed close is repeated. -/
theorem uartOk_of_healthy (h : uartMachine.Reached uartHealthy s) : UartOk s := by
  have hinv : UartInv s := by
    refine h.invariant _ ?_ fun s e t hinv hok hstep => hinv.step hok hstep
    rintro _ rfl
    exact uartOpened_inv
  exact hinv.ok

end Steps

section Failure

/-- A close that the shutdown response wakes. -/
def answeredEvents : List UartEvent :=
  [.rxWork, .close, .setClose, .sndShutdownReq true, .rxPoll true,
    .rxRead (some ⟨8, cmdGrpUart, 1, 0⟩), .rxCheck, .rxCleanup, .closeWake, .filpClose true]

theorem uartOk_of_healthy_answered : ∃ s, Machine.runEvents uartStep answeredEvents uartOpened
    = some s ∧ s.closes = 1 ∧ s.calls = [.closed] ∧ UartOk s := by
  have hopened : uartMachine.Reached uartHealthy uartOpened := .init rfl
  have hpoll := hopened.step (a := UartEvent.rxWork) trivial rfl
  -- the file has not been closed before
  have hchecked := hpoll.step (a := UartEvent.close) (fun _ => rfl) rfl
  have hsending := hchecked.step (a := UartEvent.setClose) trivial rfl
  have hwaiting := hsending.step (a := UartEvent.sndShutdownReq true) trivial rfl
  have hreading := hwaiting.step (a := UartEvent.rxPoll true) trivial rfl
  have hframe := hreading.step (a := UartEvent.rxRead (some ⟨8, cmdGrpUart, 1, 0⟩)) trivial rfl
  have hending := hframe.step (a := UartEvent.rxCheck) trivial rfl
  have hended := hending.step (a := UartEvent.rxCleanup) trivial rfl
  have hwoken := hended.step (a := UartEvent.closeWake) trivial rfl
  have hclosed := hwoken.step (a := UartEvent.filpClose true) trivial rfl
  exact ⟨_, rfl, rfl, rfl, uartOk_of_healthy hclosed⟩

/-- A close that a signal cuts short while the task polls. -/
def signalledEvents : List UartEvent :=
  [.rxWork, .close, .setClose, .sndShutdownReq true, .signal, .filpClose true]

/-- A close that fails behind the task, and is repeated. -/
def repeatedEvents : List UartEvent :=
  [.rxWork, .close, .setClose, .rxPoll false, .sndShutdownReq true, .rxCleanup, .closeWake,
    .filpClose false, .close, .setClose, .sndShutdownReq true, .signal, .filpClose false]

/-- The file is closed under the poll of the receive task, and closed a second time. -/
theorem uartOk_fails :
    (∃ s, uartMachine.Reached (fun _ _ => True) s ∧ s.closes = 1 ∧ s.rx = .polling ∧ ¬ UartOk s)
      ∧ ∃ s, uartMachine.Reached (fun _ _ => True) s ∧ s.closes = 2 ∧ ¬ UartOk s := by
  have hsignalled : Machine.runEvents uartStep signalledEvents uartOpened
      = some ⟨false, true, .polling, .idle, 1, [.closed]⟩ := by decide
  have hrepeated : Machine.runEvents uartStep repeatedEvents uartOpened
      = some ⟨true, true, .ended, .idle, 2, []⟩ := by decide
  have hinit : uartMachine.Reached (fun _ _ => True) uartOpened := .init rfl
  refine ⟨⟨_, hinit.runEvents id _ hsignalled, rfl, rfl, fun h => ?_⟩,
    ⟨_, hinit.runEvents id _ hrepeated, rfl, fun h => ?_⟩⟩
  · have := h.not_canRead Nat.one_pos
    simp [RxTask.canRead] at this
  · have := h.closes_le
    contradiction

end Failure

end MangOH.Mt7697serial
