import Mathlib.Algebra.Group.Nat.Defs
import Mathlib.Data.List.Basic
import MangOH.RedMux.Mux

/-! Who uses a bus: the count of a multiplexer, and the clients that have selected it. -/
namespace MangOH.RedMux
open Lib

variable {α : Type} [DecidableEq α] {high selection : α} {m : Mux α} {t : Tracked α}
  {c : MuxCall α} {b : Board}

/-- The selections that clients hold: a release gives back one of them. -/
def hold (held : List α) : MuxCall α × Ret → List α
  | (.select selection _, .ok ()) => selection :: held
  | (.release selection, .ok ()) => held.erase selection
  | (_, .error _) => held

/-- The successful selects that no successful release has matched yet. -/
def Tracked.outstanding (t : Tracked α) : List α := t.history.foldl hold []

/-- The count says how many selects are outstanding, and they are all for the current selection. -/
structure Owned (t : Tracked α) : Prop where
  count : t.mux.numRequested.toNat = t.outstanding.length
  current : ∀ selection ∈ t.outstanding, selection = t.mux.currentSelection

/-- What a call may change. -/
structure CallOk (t t' : Tracked α) (c : MuxCall α) (ret : Ret) : Prop where
  switched : t'.mux.currentSelection ≠ t.mux.currentSelection ∨ t'.mux.level ≠ t.mux.level →
    t.outstanding = []
  refused : ∀ e, ret = .error e → t'.mux.currentSelection = t.mux.currentSelection ∧
    t'.mux.numRequested = t.mux.numRequested
  released : ∀ selection, c = .release selection → ret = .ok () →
    t'.mux.numRequested.toNat + 1 = t.mux.numRequested.toNat

/-- The counter has room for one more select. -/
def MuxCall.Fits (m : Mux α) : MuxCall α → Prop
  | .select selection _ => selection = m.currentSelection → m.numRequested ≠ 0xffffffff
  | .release _ => True

def Call.Fits (b : Board) : Call → Prop
  | .sdio c => c.Fits b.sdio.mux
  | .pcm c => c.Fits b.pcm.mux

/-! ### One call -/

/-- What a call can do. -/
inductive CallOutcome (high : α) (m : Mux α) : MuxCall α → Ret → Mux α → Prop
  | shared {gpio : GpioAnswer} :
      CallOutcome high m (.select m.currentSelection gpio) (.ok ())
        { m with numRequested := m.numRequested + 1 }
  | switched {selection : α} (hne : selection ≠ m.currentSelection) (hfree : m.numRequested = 0) :
      CallOutcome high m (.select selection .done) (.ok ())
        ⟨selection, 1, decide (selection = high)⟩
  | stuck {selection : α} {n : Int} {level : Bool} (hne : selection ≠ m.currentSelection)
      (hfree : m.numRequested = 0) :
      CallOutcome high m (.select selection (.failed n level)) (.error (.code n))
        { m with level := level }
  | released (hheld : m.numRequested ≠ 0) :
      CallOutcome high m (.release m.currentSelection) (.ok ())
        { m with numRequested := m.numRequested - 1 }
  | refused {c : MuxCall α} {e : Errno} : CallOutcome high m c (.error e) m

theorem callOutcome (high : α) (m : Mux α) (c : MuxCall α) :
    CallOutcome high m c (m.call high c).1 (m.call high c).2 := by
  cases c with
  | select selection gpio =>
    change CallOutcome high m _ (m.select high selection gpio).1 (m.select high selection gpio).2
    unfold Mux.select
    split
    · next heq =>
      subst heq
      exact .shared
    · next hne =>
      split
      · next hfree =>
        cases gpio with
        | done =>
          rw [hfree]
          exact .switched hne hfree
        | failed n level => exact .stuck hne hfree
      · exact .refused
  | release selection =>
    change CallOutcome high m _ (m.release selection).1 (m.release selection).2
    unfold Mux.release
    split
    · exact .refused
    · next heq =>
      rw [ne_eq, not_not] at heq
      subst heq
      split
      · next hheld => exact .released hheld
      · exact .refused

theorem Owned.free (h : Owned t) (hfree : t.mux.numRequested = 0) : t.outstanding = [] := by
  apply List.eq_nil_of_length_eq_zero
  rw [← h.count, hfree]
  rfl

theorem toNat_pred {n : UInt32} (hn : n ≠ 0) : (n - 1).toNat + 1 = n.toNat := by
  have hpos : n.toNat ≠ 0 := fun hzero => hn (UInt32.toNat_inj.mp hzero)
  have hone : (1 : UInt32) ≤ n := by
    rw [UInt32.le_iff_toNat_le, UInt32.toNat_one]
    omega
  rw [UInt32.toNat_sub_of_le _ _ hone, UInt32.toNat_one]
  omega

theorem toNat_succ {n : UInt32} (hn : n ≠ 0xffffffff) : (n + 1).toNat = n.toNat + 1 := by
  have hlt := UInt32.toNat_lt n
  have hne : n.toNat ≠ 0xffffffff := fun heq => hn (UInt32.toNat_inj.mp heq)
  rw [UInt32.toNat_add, UInt32.toNat_one, Nat.mod_eq_of_lt (by omega)]

/-- A call that a client makes changes only what nobody else holds. -/
theorem Owned.callOk (h : Owned t) (c : MuxCall α) :
    CallOk t (t.call (Mux.call high) c) c (t.mux.call high c).1 := by
  obtain ⟨mux, history⟩ := t
  have hcall := callOutcome high mux c
  simp only [Tracked.call]
  generalize mux.call high c = result at *
  obtain ⟨ret, mux'⟩ := result
  cases hcall with
  | shared =>
    refine ⟨fun hne => ?_, fun e he => ?_, fun _ hc => ?_⟩
    · rcases hne with hne | hne <;> exact absurd rfl hne
    · cases he
    · cases hc
  | switched hne hfree =>
    refine ⟨fun _ => h.free hfree, fun e he => ?_, fun _ hc => ?_⟩
    · cases he
    · cases hc
  | stuck hne hfree =>
    refine ⟨fun _ => h.free hfree, fun _ _ => ⟨rfl, rfl⟩, fun _ hc => ?_⟩
    cases hc
  | released hheld =>
    refine ⟨fun hne => ?_, fun e he => ?_, fun _ _ _ => toNat_pred hheld⟩
    · rcases hne with hne | hne <;> exact absurd rfl hne
    · cases he
  | refused =>
    refine ⟨fun hne => ?_, fun _ _ => ⟨rfl, rfl⟩, fun _ _ hret => ?_⟩
    · rcases hne with hne | hne <;> exact absurd rfl hne
    · cases hret

theorem outstanding_call (run : Mux α → MuxCall α → Ret × Mux α) (t : Tracked α) (c : MuxCall α) :
    (t.call run c).outstanding = hold t.outstanding (c, (run t.mux c).1) := by
  rw [Tracked.call, Tracked.outstanding, List.foldl_append]
  rfl

theorem hold_error (held : List α) (c : MuxCall α) (e : Errno) :
    hold held (c, .error e) = held := by
  cases c <;> rfl

theorem Owned.call (h : Owned t) (hfits : c.Fits t.mux) : Owned (t.call (Mux.call high) c) := by
  have hout := outstanding_call (Mux.call high) t c
  have hcall := callOutcome high t.mux c
  have hmux : (t.call (Mux.call high) c).mux = (t.mux.call high c).2 := rfl
  generalize t.call (Mux.call high) c = t' at *
  generalize t.mux.call high c = result at *
  obtain ⟨ret, mux'⟩ := result
  obtain ⟨mux', history'⟩ := t'
  cases hmux
  cases hcall with
  | shared =>
    refine ⟨?_, fun a ha => ?_⟩
    · rw [hout]
      exact (toNat_succ (hfits rfl)).trans (congrArg (· + 1) h.count)
    · rw [hout] at ha
      rcases List.mem_cons.mp ha with rfl | ha
      · rfl
      · exact h.current a ha
  | switched hne hfree =>
    rw [h.free hfree] at hout
    refine ⟨?_, fun a ha => ?_⟩
    · rw [hout]
      rfl
    · rw [hout] at ha
      exact List.mem_singleton.mp ha
  | stuck hne hfree => exact ⟨by rw [hout]; exact h.count, by rw [hout]; exact h.current⟩
  | released hheld =>
    have hmem : t.mux.currentSelection ∈ t.outstanding := by
      have hpos : t.outstanding ≠ [] := by
        intro hnil
        have hcount := h.count
        rw [hnil] at hcount
        exact hheld (UInt32.toNat_inj.mp hcount)
      obtain ⟨a, ha⟩ := List.exists_mem_of_ne_nil _ hpos
      exact h.current a ha ▸ ha
    have hlen := List.length_erase_of_mem hmem
    have hpred := toNat_pred hheld
    refine ⟨?_, fun a ha => ?_⟩
    · rw [hout]
      have hcount := h.count
      change (t.mux.numRequested - 1).toNat = (t.outstanding.erase t.mux.currentSelection).length
      omega
    · rw [hout] at ha
      exact h.current a (List.mem_of_mem_erase ha)
  | refused =>
    rw [hold_error] at hout
    exact ⟨by rw [hout]; exact h.count, by rw [hout]; exact h.current⟩

/-! ### Both multiplexers, over whole runs -/

/-- Both counts are right, and whatever is called next changes only what nobody holds. -/
structure BoardOwned (b : Board) : Prop where
  sdio : Owned b.sdio
  pcm : Owned b.pcm
  sdioNext : ∀ c, CallOk b.sdio (b.sdio.call sdioCall c) c (sdioCall b.sdio.mux c).1
  pcmNext : ∀ c, CallOk b.pcm (b.pcm.call pcmCall c) c (pcmCall b.pcm.mux c).1

theorem sdioCall_eq_call : sdioCall = Mux.call .sdCardSlot := by
  funext m c
  cases c <;> rfl

theorem pcmCall_eq_call : pcmCall = Mux.call .onboard := by
  funext m c
  cases c <;> rfl

theorem boardOwned_of_owned (hsdio : Owned b.sdio) (hpcm : Owned b.pcm) : BoardOwned b := by
  refine ⟨hsdio, hpcm, fun c => ?_, fun c => ?_⟩
  · rw [sdioCall_eq_call]
    exact hsdio.callOk c
  · rw [pcmCall_eq_call]
    exact hpcm.callOk c

theorem BoardOwned.initial {sdioGpio pcmGpio : Ret} (h : muxInit sdioGpio pcmGpio = .ok b) :
    BoardOwned b := by
  have hb : b = ⟨⟨⟨.sdCardSlot, 0, true⟩, []⟩, ⟨⟨.onboard, 0, true⟩, []⟩⟩ := by
    cases sdioGpio with
    | error e => cases h
    | ok _ =>
      cases pcmGpio with
      | error e => cases h
      | ok _ =>
        cases h
        rfl
  subst hb
  apply boardOwned_of_owned
  · exact ⟨rfl, by simp [Tracked.outstanding]⟩
  · exact ⟨rfl, by simp [Tracked.outstanding]⟩

theorem BoardOwned.call (h : BoardOwned b) {c : Call} (hfits : c.Fits b) :
    BoardOwned (b.call c) := by
  cases c with
  | sdio c =>
    apply boardOwned_of_owned
    · change Owned (b.sdio.call sdioCall c)
      rw [sdioCall_eq_call]
      exact h.sdio.call hfits
    · exact h.pcm
  | pcm c =>
    apply boardOwned_of_owned
    · exact h.sdio
    · change Owned (b.pcm.call pcmCall c)
      rw [pcmCall_eq_call]
      exact h.pcm.call hfits

/-- As long as no counter is full when it is counted up, the clients own what they have selected. -/
theorem boardOwned_of_reached
    (h : boardMachine.Reached (fun b c => c.Fits b) b) : BoardOwned b := by
  refine h.invariant BoardOwned ?_ ?_
  · rintro s ⟨sdioGpio, pcmGpio, hinit⟩
    exact .initial hinit
  · rintro s c s' hs hfits rfl
    exact hs.call hfits

/-- The board as it is started. -/
def started : Board := ⟨⟨⟨.sdCardSlot, 0, true⟩, []⟩, ⟨⟨.onboard, 0, true⟩, []⟩⟩

theorem reached_started {ok : Board → Call → Prop} : boardMachine.Reached ok started :=
  .init ⟨.ok (), .ok (), rfl⟩

/-- The IoT slot has taken the SDIO bus; the PCM bus could not be switched. -/
def sdioTaken : Board :=
  (started.call (.sdio (.select .iotSlot .done))).call
    (.pcm (.select .iotSlot (.failed (-5) false)))

theorem reached_sdioTaken : boardMachine.Reached (fun b c => c.Fits b) sdioTaken := by
  apply Machine.Reached.step (s := started.call (.sdio (.select .iotSlot .done)))
    (a := .pcm (.select .iotSlot (.failed (-5) false)))
  · exact .step reached_started (show Call.Fits _ (.sdio (.select .iotSlot .done)) by
      intro _
      decide) rfl
  · intro _
    decide
  · rfl

theorem boardOwned_sdioTaken : BoardOwned sdioTaken := boardOwned_of_reached reached_sdioTaken

/-- The SD card slot is selected again and again. -/
def afterSelects : Nat → Board
  | 0 => started
  | n + 1 => (afterSelects n).call (.sdio (.select .sdCardSlot .done))

theorem afterSelects_sdio (n : Nat) :
    (afterSelects n).sdio.mux = ⟨.sdCardSlot, UInt32.ofNat n, true⟩ ∧
      (afterSelects n).sdio.outstanding.length = n := by
  induction n with
  | zero => exact ⟨rfl, rfl⟩
  | succ n ih =>
    obtain ⟨hmux, hlen⟩ := ih
    have hout := outstanding_call sdioCall (afterSelects n).sdio (.select .sdCardSlot .done)
    have hcall : sdioCall (afterSelects n).sdio.mux (.select .sdCardSlot .done) =
        (.ok (), ⟨.sdCardSlot, UInt32.ofNat n + 1, true⟩) := by
      rw [hmux]
      rfl
    constructor
    · change (sdioCall (afterSelects n).sdio.mux (.select .sdCardSlot .done)).2 = _
      rw [hcall, UInt32.ofNat_add]
      rfl
    · change ((afterSelects n).sdio.call sdioCall _).outstanding.length = n + 1
      rw [hout, hcall]
      exact congrArg (· + 1) hlen

theorem reached_afterSelects (n : Nat) :
    boardMachine.Reached (fun _ _ => True) (afterSelects n) := by
  induction n with
  | zero => exact reached_started
  | succ n ih => exact ih.step trivial rfl

/-- The counter has gone round: the bus counts as free while all these clients hold it. -/
theorem boardOwned_fails : boardMachine.Reached (fun _ _ => True) (afterSelects (2 ^ 32)) ∧
    ¬ BoardOwned (afterSelects (2 ^ 32)) := by
  refine ⟨reached_afterSelects _, fun h => ?_⟩
  obtain ⟨hmux, hlen⟩ := afterSelects_sdio (2 ^ 32)
  have hcount := h.sdio.count
  rw [hmux, hlen] at hcount
  revert hcount
  decide

end MangOH.RedMux
