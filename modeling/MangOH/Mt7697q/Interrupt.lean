import Mathlib.Data.List.FinRange
import MangOH.Mt7697q.Queue

/-! One run of the interrupt's work: the mailbox is cleared and its channels are processed. -/
namespace MangOH.Mt7697q

abbrev numQueues : Nat := 6

def flagsInUseOffset : Nat := 0
def flagsInUseWidth : Nat := 1
def flagsDirOffset : Nat := 1
def flagsDirWidth : Nat := 1

/-- `MT7697_QUEUE_DIR_S2M` -/
def queueDirS2M : Nat := 1

def flagsGetInUse (flags : UInt32) : Nat := bfGet flags.toNat flagsInUseOffset flagsInUseWidth

def flagsGetDir (flags : UInt32) : Nat := bfGet flags.toNat flagsDirOffset flagsDirWidth

/-- A channel as the loop over the channels finds it. -/
structure Channel where
  /-- the host's copy of the control words -/
  data : QueueData
  /-- the read offset in the slave's memory -/
  slaveRdOffset : Nat
  /-- a writer of this channel was told to try again and waits -/
  writerWaits : Bool
  /-- the flag that the channels share -/
  blockedWriter : Bool
  /-- what the channel's handler returns -/
  result : Except Errno Nat

/-- What a run of the work meets. -/
structure IrqInputs where
  rdMbx : Except Errno UInt8
  clrMbx : Except Errno Unit
  queues : Fin numQueues → Channel

/-- `mt7697q_get_s2m_mbx` -/
def getS2mMbx (inputs : IrqInputs) : Except Errno UInt8 :=
  match inputs.rdMbx with
  | .error e => .error e
  | .ok mbox =>
    match inputs.clrMbx with
    | .error e => .error e
    | .ok () => .ok mbox

/-- What a run of the work does. -/
inductive IrqAct
  | queueDelayedWork (queued : Bool)
  | enableIrq
  | procData (ch : Fin numQueues)
  | notifyTx (ch : Fin numQueues) (free : Nat)
deriving DecidableEq

def mbxBit (mbox : UInt8) (ch : Fin numQueues) : Bool := mbox.toNat &&& 1 <<< ch.val != 0

/-- What the loop calls for a channel. -/
def channelAct (mbox : UInt8) (queues : Fin numQueues → Channel) (ch : Fin numQueues) :
    Option IrqAct :=
  let qs := queues ch
  if flagsGetInUse qs.data.flags ≠ 0 ∧ mbxBit mbox ch then
    if flagsGetDir qs.data.flags = queueDirS2M then some (.procData ch)
    else if qs.blockedWriter then some (.notifyTx ch (getFreeWords qs.data))
    else none
  else none

/-- The loop over the channels. Only the error of `mt7697q_proc_data` ends it. -/
def irqChannels (mbox : UInt8) (queues : Fin numQueues → Channel) :
    List (Fin numQueues) → Except Errno Nat → List IrqAct × Except Errno Nat
  | [], ret => ([], ret)
  | ch :: chs, ret =>
    match channelAct mbox queues ch with
    | none => irqChannels mbox queues chs ret
    | some act =>
      match act, (queues ch).result with
      | .procData _, .error e => ([act], .error e)
      | _, result =>
        let rest := irqChannels mbox queues chs result
        (act :: rest.1, rest.2)

/-- `mt7697q_irq_run`; `queued` is what `queue_delayed_work` returns. -/
def irqRun (inputs : IrqInputs) (queued : Bool) : List IrqAct × Except Errno Nat :=
  match getS2mMbx inputs with
  | .error e => ([], .error e)
  | .ok mbox =>
    let arm := if mbox ≠ 0 then IrqAct.queueDelayedWork queued else .enableIrq
    let ret := if mbox ≠ 0 ∧ !queued then .error .inval else .ok 0
    let rest := irqChannels mbox inputs.queues (List.finRange numQueues) ret
    (arm :: rest.1, rest.2)

section Loop

variable {mbox : UInt8} {queues : Fin numQueues → Channel} {chs : List (Fin numQueues)}
  {ret : Except Errno Nat} {act : IrqAct}

/-- The loop ends at this channel. -/
def Fails (mbox : UInt8) (queues : Fin numQueues → Channel) (ch : Fin numQueues) : Prop :=
  channelAct mbox queues ch = some (.procData ch) ∧ ∃ e, (queues ch).result = .error e

theorem channelAct_cases {ch : Fin numQueues} (h : channelAct mbox queues ch = some act) :
    act = .procData ch ∨ act = .notifyTx ch (getFreeWords (queues ch).data) := by
  unfold channelAct at h
  dsimp only at h
  split at h
  · split at h
    · exact .inl (Option.some.inj h).symm
    · split at h
      · exact .inr (Option.some.inj h).symm
      · contradiction
  · contradiction

theorem irqChannels_cons (mbox : UInt8) (queues : Fin numQueues → Channel)
    (ret : Except Errno Nat) (ch : Fin numQueues) (chs : List (Fin numQueues)) :
    Fails mbox queues ch ∧ (irqChannels mbox queues (ch :: chs) ret).1 = [.procData ch] ∨
      ¬ Fails mbox queues ch ∧ ∃ ret', (irqChannels mbox queues (ch :: chs) ret).1
        = (channelAct mbox queues ch).toList ++ (irqChannels mbox queues chs ret').1 := by
  cases hact : channelAct mbox queues ch with
  | none =>
    refine .inr ⟨fun h => ?_, ret, ?_⟩
    · rw [Fails, hact] at h
      cases h.1
    · simp [irqChannels, hact]
  | some act =>
    cases hres : (queues ch).result with
    | ok n =>
      refine .inr ⟨fun h => ?_, .ok n, ?_⟩
      · obtain ⟨-, e, he⟩ := h
        rw [hres] at he
        cases he
      · simp [irqChannels, hact, hres]
    | error e =>
      rcases channelAct_cases hact with rfl | rfl
      · exact .inl ⟨⟨hact, e, hres⟩, by simp [irqChannels, hact, hres]⟩
      · refine .inr ⟨fun h => ?_, .error e, by simp [irqChannels, hact, hres]⟩
        rw [Fails, hact] at h
        cases h.1

/-- A channel's call is made unless the loop has ended at an earlier one. -/
theorem mem_irqChannels (hchs : chs.Pairwise (· < ·)) :
    act ∈ (irqChannels mbox queues chs ret).1
      ↔ ∃ ch ∈ chs, channelAct mbox queues ch = some act
        ∧ ∀ c ∈ chs, c < ch → ¬ Fails mbox queues c := by
  induction chs generalizing ret with
  | nil => simp [irqChannels]
  | cons ch chs ih =>
    obtain ⟨hlt, hrest⟩ := List.pairwise_cons.mp hchs
    have hfirst : ∀ c ∈ ch :: chs, ¬ c < ch := by
      intro c hc hcc
      rcases List.mem_cons.mp hc with rfl | hc
      · exact lt_irrefl _ hcc
      · exact lt_asymm hcc (hlt c hc)
    constructor
    · intro hmem
      rcases irqChannels_cons mbox queues ret ch chs with
        ⟨hfail, hacts⟩ | ⟨hok, ret', hacts⟩
      · rw [hacts, List.mem_singleton] at hmem
        exact ⟨ch, .head _, hmem ▸ hfail.1, fun c hc hcc => (hfirst c hc hcc).elim⟩
      · rw [hacts, List.mem_append, Option.mem_toList] at hmem
        rcases hmem with hmem | hmem
        · exact ⟨ch, .head _, hmem, fun c hc hcc => (hfirst c hc hcc).elim⟩
        · obtain ⟨c, hc, hact, hbefore⟩ := (ih hrest).mp hmem
          refine ⟨c, .tail _ hc, hact, fun c' hc' hcc => ?_⟩
          rcases List.mem_cons.mp hc' with rfl | hc'
          · exact hok
          · exact hbefore c' hc' hcc
    · rintro ⟨c, hc, hact, hbefore⟩
      rcases irqChannels_cons mbox queues ret ch chs with
        ⟨hfail, hacts⟩ | ⟨hok, ret', hacts⟩
      · rcases List.mem_cons.mp hc with rfl | hc
        · rw [hfail.1] at hact
          rw [hacts]
          exact List.mem_singleton.mpr (Option.some.inj hact).symm
        · exact (hbefore ch (.head _) (hlt c hc) hfail).elim
      · rw [hacts, List.mem_append, Option.mem_toList]
        rcases List.mem_cons.mp hc with rfl | hc
        · exact .inl hact
        · exact .inr ((ih hrest).mpr ⟨c, hc, hact, fun c' hc' => hbefore c' (.tail _ hc')⟩)

end Loop

section Events

variable {inputs : IrqInputs} {queued : Bool} {mbox : UInt8} {act : IrqAct}

/-- The calls for the channels in a run that has cleared the mailbox. -/
theorem mem_irqRun (hclr : getS2mMbx inputs = .ok mbox) {ch : Fin numQueues}
    (hch : act = .procData ch ∨ ∃ free, act = .notifyTx ch free) :
    act ∈ (irqRun inputs queued).1
      ↔ channelAct mbox inputs.queues ch = some act ∧ ∀ c < ch, ¬ Fails mbox inputs.queues c := by
  have harm : act ≠ (if mbox ≠ 0 then IrqAct.queueDelayedWork queued else .enableIrq) := by
    rcases hch with rfl | ⟨free, rfl⟩ <;> split <;> simp
  have hsorted : (List.finRange numQueues).Pairwise (· < ·) := List.pairwise_lt_finRange _
  simp only [irqRun, hclr, List.mem_cons, harm, false_or, mem_irqChannels hsorted,
    List.mem_finRange, true_and, forall_const]
  constructor
  · rintro ⟨c, hact, hbefore⟩
    obtain rfl : c = ch := by
      rcases channelAct_cases hact with rfl | rfl <;>
        rcases hch with h | ⟨free, h⟩ <;> cases h <;> rfl
    exact ⟨hact, fun c' hc' => hbefore c' hc'⟩
  · rintro ⟨hact, hbefore⟩
    exact ⟨ch, hact, fun c' hc' => hbefore c' hc'⟩

/-- The channel is in use and its bit was set. -/
def Due (mbox : UInt8) (queues : Fin numQueues → Channel) (ch : Fin numQueues) : Prop :=
  (queues ch).data.flags.toNat.testBit 0 = true ∧ mbxBit mbox ch = true

/-- The direction bit says slave to master. -/
def Channel.IsS2M (qs : Channel) : Prop := qs.data.flags.toNat.testBit 1 = true

/-- The free words of the queue as the slave's read offset has it. -/
def Channel.freeWords (qs : Channel) : Nat :=
  getFreeWords { qs.data with rdOffset := qs.slaveRdOffset }

/-- No event is lost: every channel that is due is processed. -/
def EventsKept (mbox : UInt8) (queues : Fin numQueues → Channel) (acts : List IrqAct) : Prop :=
  ∀ ch, Due mbox queues ch →
    ((queues ch).IsS2M → .procData ch ∈ acts) ∧
    (¬ (queues ch).IsS2M → (queues ch).writerWaits = true →
      .notifyTx ch (queues ch).freeWords ∈ acts)

/-- When a run keeps the events: the flags of a due slave-to-master channel are clear above the
direction bit, a waiting writer's flag is still set and the host knows the slave's free words, and
no channel ahead fails. -/
structure KeepsEvents (mbox : UInt8) (queues : Fin numQueues → Channel) : Prop where
  dirClear : ∀ ch, Due mbox queues ch → (queues ch).IsS2M →
    (queues ch).data.flags.toNat.testBit 2 = false
  flagSet : ∀ ch, Due mbox queues ch → ¬ (queues ch).IsS2M → (queues ch).writerWaits = true →
    (queues ch).blockedWriter = true
  freshOffset : ∀ ch, Due mbox queues ch → ¬ (queues ch).IsS2M → (queues ch).writerWaits = true →
    getFreeWords (queues ch).data = (queues ch).freeWords
  noneFails : ∀ ch, Due mbox queues ch → (queues ch).IsS2M ∨ (queues ch).writerWaits = true →
    ∀ c < ch, ¬ Fails mbox queues c

variable {queues : Fin numQueues → Channel} {ch : Fin numQueues}

theorem bfGet_one (v o : Nat) : bfGet v o 1 = v / 2 ^ o % 4 := by
  rw [bfGet, Nat.and_two_pow_sub_one_eq_mod, Nat.shiftRight_eq_div_pow]

theorem Due.inUse (h : Due mbox queues ch) : flagsGetInUse (queues ch).data.flags ≠ 0 := by
  have h0 := h.1
  rw [Nat.testBit_eq_decide_div_mod_eq, decide_eq_true_eq] at h0
  rw [flagsGetInUse, flagsInUseWidth, bfGet_one, flagsInUseOffset]
  omega

theorem getDir_iff {qs : Channel} :
    flagsGetDir qs.data.flags = queueDirS2M
      ↔ qs.IsS2M ∧ qs.data.flags.toNat.testBit 2 = false := by
  rw [Channel.IsS2M, Nat.testBit_eq_decide_div_mod_eq, Nat.testBit_eq_decide_div_mod_eq,
    decide_eq_true_eq, decide_eq_false_iff_not, flagsGetDir, flagsDirWidth, bfGet_one,
    flagsDirOffset, queueDirS2M]
  omega

theorem Due.procData_iff (h : Due mbox queues ch) :
    channelAct mbox queues ch = some (.procData ch)
      ↔ (queues ch).IsS2M ∧ (queues ch).data.flags.toNat.testBit 2 = false := by
  rw [← getDir_iff, channelAct, if_pos ⟨h.inUse, h.2⟩]
  split
  · simpa
  · next hdir =>
    simp only [hdir, iff_false]
    split <;> simp

theorem Due.notifyTx_iff (h : Due mbox queues ch) (hm2s : ¬ (queues ch).IsS2M) {free : Nat} :
    channelAct mbox queues ch = some (.notifyTx ch free)
      ↔ (queues ch).blockedWriter = true ∧ getFreeWords (queues ch).data = free := by
  have hdir : ¬ flagsGetDir (queues ch).data.flags = queueDirS2M := fun hd =>
    hm2s (getDir_iff.mp hd).1
  rw [channelAct, if_pos ⟨h.inUse, h.2⟩, if_neg hdir]
  split
  · next hflag => simp [hflag]
  · next hflag => simp [hflag]

/-- A run that clears the mailbox keeps the events exactly under these conditions. -/
theorem eventsKept_iff (hclr : getS2mMbx inputs = .ok mbox) :
    EventsKept mbox inputs.queues (irqRun inputs queued).1 ↔ KeepsEvents mbox inputs.queues := by
  have hproc : ∀ ch, Due mbox inputs.queues ch →
      (.procData ch ∈ (irqRun inputs queued).1
        ↔ ((inputs.queues ch).IsS2M ∧ (inputs.queues ch).data.flags.toNat.testBit 2 = false)
          ∧ ∀ c < ch, ¬ Fails mbox inputs.queues c) := fun ch hdue => by
    rw [mem_irqRun hclr (.inl rfl), hdue.procData_iff]
  have hnotify : ∀ ch, Due mbox inputs.queues ch → ¬ (inputs.queues ch).IsS2M →
      (.notifyTx ch (inputs.queues ch).freeWords ∈ (irqRun inputs queued).1
        ↔ ((inputs.queues ch).blockedWriter = true
            ∧ getFreeWords (inputs.queues ch).data = (inputs.queues ch).freeWords)
          ∧ ∀ c < ch, ¬ Fails mbox inputs.queues c) := fun ch hdue hm2s => by
    rw [mem_irqRun hclr (.inr ⟨_, rfl⟩), hdue.notifyTx_iff hm2s]
  constructor
  · intro hkept
    refine ⟨fun ch hdue hs2m => ?_, fun ch hdue hm2s hwait => ?_, fun ch hdue hm2s hwait => ?_,
      fun ch hdue hwanted => ?_⟩
    · exact ((hproc ch hdue).mp ((hkept ch hdue).1 hs2m)).1.2
    · exact ((hnotify ch hdue hm2s).mp ((hkept ch hdue).2 hm2s hwait)).1.1
    · exact ((hnotify ch hdue hm2s).mp ((hkept ch hdue).2 hm2s hwait)).1.2
    · by_cases hs2m : (inputs.queues ch).IsS2M
      · exact ((hproc ch hdue).mp ((hkept ch hdue).1 hs2m)).2
      · have hwait := hwanted.resolve_left hs2m
        exact ((hnotify ch hdue hs2m).mp ((hkept ch hdue).2 hs2m hwait)).2
  · intro hkeeps ch hdue
    refine ⟨fun hs2m => ?_, fun hm2s hwait => ?_⟩
    · exact (hproc ch hdue).mpr ⟨⟨hs2m, hkeeps.dirClear ch hdue hs2m⟩,
        hkeeps.noneFails ch hdue (.inl hs2m)⟩
    · exact (hnotify ch hdue hm2s).mpr ⟨⟨hkeeps.flagSet ch hdue hm2s hwait,
        hkeeps.freshOffset ch hdue hm2s hwait⟩, hkeeps.noneFails ch hdue (.inr hwait)⟩

end Events

section Stale

/-- The slave has emptied the queue of channel 0, whose writer waits for it: the host still counts
the words it wrote before. -/
def staleInputs : IrqInputs where
  rdMbx := .ok 1
  clrMbx := .ok ()
  queues _ :=
    { data := { flags := 0x80001, baseAddr := 0x1000, rdOffset := 0, wrOffset := 7 }
      slaveRdOffset := 7
      writerWaits := true
      blockedWriter := true
      result := .ok 0 }

/-- An event is kept where the offset is fresh … -/
theorem eventsKept_fresh :
    let inputs := { staleInputs with
      queues := fun ch => { staleInputs.queues ch with slaveRdOffset := 0 } }
    getS2mMbx inputs = .ok 1 ∧ (EventsKept 1 inputs.queues (irqRun inputs true).1
      ↔ KeepsEvents 1 inputs.queues) :=
  ⟨rfl, eventsKept_iff rfl⟩

/-- … and lost where it is stale: the notification says that no word is free. -/
theorem eventsKept_fails :
    getS2mMbx staleInputs = .ok 1
      ∧ ¬ EventsKept 1 staleInputs.queues (irqRun staleInputs true).1 := by
  refine ⟨rfl, fun hkept => ?_⟩
  have hdue : Due 1 staleInputs.queues 0 := ⟨by decide, by decide⟩
  have hm2s : ¬ (staleInputs.queues 0).IsS2M := by
    unfold Channel.IsS2M
    decide
  have hmem := (hkept 0 hdue).2 hm2s rfl
  revert hmem
  decide

end Stale

end MangOH.Mt7697q
