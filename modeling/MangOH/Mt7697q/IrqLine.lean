import MangOH.Lib.Machine
import MangOH.Mt7697q.Interrupt

/-! The interrupt line over interrupts and runs of the two works. -/
namespace MangOH.Mt7697q
open Lib

/-- A work of the work queue. A delayed work is pending from the start of its delay. -/
structure Work where
  isPending : Bool := false
  isRunning : Bool := false
deriving DecidableEq

/-- Whether the work is pending or running. -/
def Work.isActive (work : Work) : Bool := work.isPending || work.isRunning

structure IrqState where
  /-- how often the line is disabled -/
  depth : Nat := 0
  /-- enables of a line that is not disabled -/
  unbalanced : Nat := 0
  irqWork : Work := {}
  irqDelayedWork : Work := {}
deriving DecidableEq

namespace IrqState

def disableIrq (s : IrqState) : IrqState := { s with depth := s.depth + 1 }

def enableIrq (s : IrqState) : IrqState :=
  if s.depth = 0 then { s with unbalanced := s.unbalanced + 1 } else { s with depth := s.depth - 1 }

/-- What an act of a run does to the line and the works. -/
def act (s : IrqState) : IrqAct → IrqState
  | .queueDelayedWork queued =>
    if queued then { s with irqDelayedWork := { s.irqDelayedWork with isPending := true } } else s
  | .enableIrq => s.enableIrq
  | .procData _ | .notifyTx _ _ => s

/-- A run of `mt7697q_irq_run`. A work that is pending is not queued again; `accepted` is whether
the queue takes it otherwise. -/
def irqRun (s : IrqState) (inputs : IrqInputs) (accepted : Bool) : IrqState :=
  (Mt7697q.irqRun inputs (accepted && !s.irqDelayedWork.isPending)).1.foldl act s

end IrqState

inductive IrqEvent
  | isr (accepted : Bool)
  | startWork
  | irqWork (inputs : IrqInputs) (accepted : Bool)
  | startDelayedWork
  | irqDelayedWork (inputs : IrqInputs) (accepted : Bool)

/-- The line interrupts only while it is enabled, and the work queue runs one work at a time. -/
def irqStep (s : IrqState) : IrqEvent → Option IrqState
  | .isr accepted =>
    if s.depth = 0 then
      let s := s.disableIrq
      if accepted && !s.irqWork.isPending then
        some { s with irqWork := { s.irqWork with isPending := true } }
      else some s
    else none
  | .startWork =>
    if s.irqWork.isPending && !s.irqWork.isRunning && !s.irqDelayedWork.isRunning then
      some { s with irqWork := ⟨false, true⟩ }
    else none
  | .irqWork inputs accepted =>
    if s.irqWork.isRunning then
      let s := s.irqRun inputs accepted
      some { s with irqWork := { s.irqWork with isRunning := false } }
    else none
  | .startDelayedWork =>
    if s.irqDelayedWork.isPending && !s.irqWork.isRunning && !s.irqDelayedWork.isRunning then
      some { s with irqDelayedWork := ⟨false, true⟩ }
    else none
  | .irqDelayedWork inputs accepted =>
    if s.irqDelayedWork.isRunning then
      let s := s.irqRun inputs accepted
      some { s with irqDelayedWork := { s.irqDelayedWork with isRunning := false } }
    else none

def irqMachine : Machine IrqState IrqEvent where
  Init s := s = {}
  Step s e t := irqStep s e = some t

/-- The line is disabled while one of the works has to enable it again, and disables and enables
take turns. -/
structure IrqOk (s : IrqState) : Prop where
  disabled_iff : 0 < s.depth ↔ s.irqWork.isActive ≠ s.irqDelayedWork.isActive
  depth_le : s.depth ≤ 1
  balanced : s.unbalanced = 0

/-- The transfers of the mailbox succeed and the work queue takes what it is given. -/
def irqHealthy : IrqEvent → Prop
  | .isr accepted => accepted = true
  | .irqWork inputs accepted | .irqDelayedWork inputs accepted =>
    ∃ mbox, getS2mMbx inputs = .ok mbox ∧ (mbox ≠ 0 → accepted = true)
  | _ => True

/-- The line is enabled and nothing is to be done, or it is disabled and one work is pending or
running. -/
inductive IrqPhase : IrqState → Prop
  | idle : IrqPhase {}
  | workPending : IrqPhase { depth := 1, irqWork := ⟨true, false⟩ }
  | workRunning : IrqPhase { depth := 1, irqWork := ⟨false, true⟩ }
  | delayedPending : IrqPhase { depth := 1, irqDelayedWork := ⟨true, false⟩ }
  | delayedRunning : IrqPhase { depth := 1, irqDelayedWork := ⟨false, true⟩ }

section Line

variable {s t : IrqState} {inputs : IrqInputs} {mbox : UInt8} {accepted : Bool}

theorem IrqPhase.irqOk (h : IrqPhase s) : IrqOk s := by
  cases h <;> exact ⟨by decide, by decide, rfl⟩

/-- The calls for the channels leave the line alone. -/
theorem foldl_irqChannels (queues : Fin numQueues → Channel) (chs : List (Fin numQueues))
    (ret : Except Errno Nat) (s : IrqState) :
    (irqChannels mbox queues chs ret).1.foldl IrqState.act s = s := by
  induction chs generalizing ret with
  | nil => rfl
  | cons ch chs ih =>
    rcases irqChannels_cons mbox queues ret ch chs with
      ⟨-, hacts⟩ | ⟨-, ret', hacts⟩
    · rw [hacts]
      rfl
    · rw [hacts, List.foldl_append]
      cases hact : channelAct mbox queues ch with
      | none => exact ih ret'
      | some act => rcases channelAct_cases hact with rfl | rfl <;> exact ih ret'

/-- A run that reads the mailbox enables the line or has the delayed work queued. -/
theorem irqRun_of_mbx (hmbx : getS2mMbx inputs = .ok mbox) (hacc : mbox ≠ 0 → accepted = true)
    (hpend : s.irqDelayedWork.isPending = false) :
    s.irqRun inputs accepted = s.enableIrq
      ∨ s.irqRun inputs accepted
        = { s with irqDelayedWork := { s.irqDelayedWork with isPending := true } } := by
  by_cases hmbox : mbox = 0
  · left
    simp [IrqState.irqRun, irqRun, hmbx, hmbox, foldl_irqChannels, IrqState.act]
  · right
    simp [IrqState.irqRun, irqRun, hmbx, hmbox, hacc hmbox, hpend, foldl_irqChannels, IrqState.act]

theorem IrqPhase.step (h : IrqPhase s) {e : IrqEvent} (hok : irqHealthy e)
    (hstep : irqStep s e = some t) : IrqPhase t := by
  cases e with
  | isr accepted =>
    obtain rfl : accepted = true := hok
    cases h <;> cases hstep
    exact .workPending
  | startWork =>
    cases h <;> cases hstep
    exact .workRunning
  | startDelayedWork =>
    cases h <;> cases hstep
    exact .delayedRunning
  | irqWork inputs accepted =>
    obtain ⟨mbox, hmbx, hacc⟩ := hok
    cases h with
    | workRunning =>
      cases hstep
      rcases irqRun_of_mbx (s := { depth := 1, irqWork := ⟨false, true⟩ }) hmbx hacc rfl with
        hrun | hrun
      · rw [hrun]
        exact .idle
      · rw [hrun]
        exact .delayedPending
    | _ => cases hstep
  | irqDelayedWork inputs accepted =>
    obtain ⟨mbox, hmbx, hacc⟩ := hok
    cases h with
    | delayedRunning =>
      cases hstep
      rcases irqRun_of_mbx (s := { depth := 1, irqDelayedWork := ⟨false, true⟩ }) hmbx hacc rfl
        with hrun | hrun
      · rw [hrun]
        exact .idle
      · rw [hrun]
        exact .delayedPending
    | _ => cases hstep

/-- While no transfer of the mailbox and no queueing fails, the line is disabled exactly while one
of the works is on its way. -/
theorem irqOk_of_healthy (h : irqMachine.Reached (fun _ e => irqHealthy e) s) : IrqOk s := by
  refine (h.invariant IrqPhase ?_ ?_).irqOk
  · rintro s rfl
    exact .idle
  · intro s e t hphase hok hstep
    exact hphase.step hok hstep

end Line

section Failure

/-- A mailbox that cannot be read. -/
def deadInputs : IrqInputs where
  rdMbx := .error .io
  clrMbx := .ok ()
  queues := staleInputs.queues

/-- A mailbox that has nothing to say. -/
def emptyInputs : IrqInputs where
  rdMbx := .ok 0
  clrMbx := .ok ()
  queues := staleInputs.queues

/-- An interrupt whose mailbox is found full twice and empty then, and the next interrupt. -/
def rearmedEvents : List IrqEvent :=
  [.isr true, .startWork, .irqWork staleInputs true, .startDelayedWork,
    .irqDelayedWork staleInputs true, .startDelayedWork,
    .irqDelayedWork emptyInputs true, .isr true]

theorem irqOk_of_healthy_rearmed : ∃ s, Machine.runEvents irqStep rearmedEvents {} = some s
    ∧ s.depth = 1 ∧ s.irqWork.isPending = true ∧ IrqOk s := by
  have hidle : irqMachine.Reached (fun _ e => irqHealthy e) {} := .init rfl
  have hfull : irqHealthy (.irqWork staleInputs true) := ⟨1, rfl, fun _ => rfl⟩
  have hempty : irqHealthy (.irqDelayedWork emptyInputs true) := ⟨0, rfl, fun _ => rfl⟩
  have hqueued := hidle.step (a := IrqEvent.isr true) rfl rfl
  have hrunning := hqueued.step (a := IrqEvent.startWork) trivial rfl
  have harmed := hrunning.step (a := IrqEvent.irqWork staleInputs true) hfull rfl
  have hstarted := harmed.step (a := IrqEvent.startDelayedWork) trivial rfl
  have hrearmed := hstarted.step (a := IrqEvent.irqDelayedWork staleInputs true) hfull rfl
  have hrestarted := hrearmed.step (a := IrqEvent.startDelayedWork) trivial rfl
  have henabled := hrestarted.step (a := IrqEvent.irqDelayedWork emptyInputs true) hempty rfl
  have hnext := henabled.step (a := IrqEvent.isr true) rfl rfl
  exact ⟨_, rfl, rfl, rfl, irqOk_of_healthy hnext⟩

/-- A failed transfer leaves the line disabled for good: no work is left to enable it. -/
theorem irqOk_fails :
    irqMachine.Reached (fun _ _ => True) { depth := 1 }
      ∧ ¬ IrqOk { depth := 1 }
      ∧ ∀ e, irqStep { depth := 1 } e = none := by
  refine ⟨?_, fun h => ?_, ?_⟩
  · exact .step (.step (.step (.init rfl) trivial (a := .isr true) rfl) trivial
      (a := .startWork) rfl)
      trivial (a := .irqWork deadInputs true) rfl
  · have := h.disabled_iff
    revert this
    decide
  · rintro (_ | _ | _ | _ | _) <;> rfl

end Failure

end MangOH.Mt7697q
