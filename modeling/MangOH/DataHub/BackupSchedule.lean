import MangOH.DataHub.BackupTimers
import MangOH.DataHub.Criteria

/-! When backups are made: the deadline of the backup timer, and the time between two backups. -/
namespace MangOH.DataHub

open Outcome

variable {P : Platform} {ctx : ObsContext} {env : Environment} {o o' : Observation} {s : DataSample}
  {t : DataType} {evs : List ObsEvent}

/-- An Observation, and the time at which its backup timer expires, on the relative clock in ms. -/
structure Timed where
  obs : Observation
  deadline : Option Nat

variable {b b' start : Timed} {log : List (Environment × List ObsEvent)}

namespace Timed

/-- A timer that is started now, for the rest of the time until `nextBackupTime` in seconds. The
interval is a 32-bit number of ms. -/
def timerUntil (env : Environment) (nextBackupTime : Nat) : Nat :=
  clockMs env + (nextBackupTime - env.relSec) * 1000 % 2 ^ 32

/-- `nextBackupTime` -/
def next (b : Timed) : Nat := (b.obs.lastBackupTime + b.obs.backupPeriod) % 2 ^ 32

/-- The record of the Observation says whether the timer is running. -/
def Ok (b : Timed) : Prop := b.obs.backupTimer = b.deadline.isSome

/-- `Backup` deletes the timer. -/
def backup (P : Platform) (ctx : ObsContext) (b : Timed) :
    Except Fault (Timed × List ObsEvent) := do
  let (obs, events) ← DataHub.backup P ctx b.obs
  pure (⟨obs, none⟩, events)

/-- The last part of `obs_ProcessAccepted`. -/
def save (P : Platform) (ctx : ObsContext) (b : Timed) : Except Fault (Timed × List ObsEvent) :=
  if b.obs.backupPeriod = 0 then pure (b, [])
  else if b.next ≤ ctx.env.relSec then b.backup P ctx
  else if b.deadline.isNone then
    pure (⟨{ b.obs with backupTimer := true }, some (timerUntil ctx.env b.next)⟩, [])
  else pure (b, [])

/-- `obs_ProcessAccepted` -/
def processAccepted (P : Platform) (ctx : ObsContext) (b : Timed) (dataType : DataType)
    (s : DataSample) : Except Fault (Timed × List ObsEvent) :=
  if b.obs.maxCount = 0 then pure (b, [])
  else do
    let (obs, dumped) ← obsProcessAccepted.retype dataType b.obs
    let (obs, evicted) ← truncateBuffer (addToBuffer obs s) obs.maxCount
    let (b, saved) ← save P ctx { b with obs }
    pure (b, dumped ++ (evicted ++ saved))

/-- `obs_SetBufferBackupPeriod` -/
def setBufferBackupPeriod (P : Platform) (ctx : ObsContext) (b : Timed) (seconds : UInt32) :
    Except Fault (Timed × List ObsEvent) :=
  if b.obs.backupPeriod = seconds.toNat then pure (b, [])
  else
    let oldPeriod := b.obs.backupPeriod
    let b : Timed := { b with obs := { b.obs with backupPeriod := seconds.toNat } }
    if b.obs.maxCount = 0 then pure (b, [])
    else if seconds.toNat = 0 then
      let (obs, events) := disableBackups P ctx b.obs
      pure (⟨obs, none⟩, events)
    else if b.obs.sampleList.isEmpty ∨ oldPeriod = 0 ∨ b.deadline = none then pure (b, [])
    else if b.next < ctx.env.relSec then
      backup P ctx ⟨{ b.obs with backupTimer := false }, none⟩
    else pure ({ b with deadline := some (timerUntil ctx.env b.next) }, [])

end Timed

/-- The samples that an event backs up. -/
def ObsEvent.saved : ObsEvent → Option (List DataSample)
  | .backingUp _ _ samples => some samples
  | _ => none

/-- The environments and the samples of all backups in a log. -/
def backupsIn (log : List (Environment × List ObsEvent)) : List (Environment × List DataSample) :=
  log.flatMap fun p => (p.2.filterMap ObsEvent.saved).map fun samples => (p.1, samples)

/-- When backups have been made, in seconds: the last one before the run, then those of the run. -/
def backupTimes (start : Timed) (log : List (Environment × List ObsEvent)) : List Nat :=
  start.obs.lastBackupTime :: (backupsIn log).map fun p => p.1.relSec

/-- The buffer as it was at the last backup, or at the start. -/
def savedSamples (start : Timed) (log : List (Environment × List ObsEvent)) : List DataSample :=
  (((backupsIn log).map Prod.snd).getLast?).getD start.obs.samples

/-- Nothing that matters to backups has changed. -/
structure BackupIdle (o o' : Observation) : Prop where
  bufferOk : o'.BufferOk
  samples : o'.samples = o.samples
  maxCount : o'.maxCount = o.maxCount
  backupPeriod : o'.backupPeriod = o.backupPeriod
  lastBackupTime : o'.lastBackupTime = o.lastBackupTime
  backupTimer : o'.backupTimer = o.backupTimer

/-- Pushes, expiries of the timer, and whatever else leaves buffer and backups alone. Each push and
each expiry comes in a state and at a time that meet a condition; the clock's microseconds are less
than a second. -/
inductive TimedRun (P : Platform) (Ok : Timed → Environment → Prop) (start : Timed) :
    List (Environment × List ObsEvent) → Timed → Prop
  | refl : TimedRun P Ok start [] start
  | push {log : List (Environment × List ObsEvent)} {b b' : Timed} {evs : List ObsEvent}
      (hr : TimedRun P Ok start log b) (ctx : ObsContext) (t : DataType) (s : DataSample)
      (hs : s.type = t) (hclock : ctx.env.relUsec < 1000000) (hok : Ok b ctx.env)
      (h : b.processAccepted P ctx t s = .ok (b', evs)) :
      TimedRun P Ok start (log ++ [(ctx.env, evs)]) b'
  | expire {log : List (Environment × List ObsEvent)} {b b' : Timed} {evs : List ObsEvent}
      (hr : TimedRun P Ok start log b) (ctx : ObsContext) (d : Nat) (hd : b.deadline = some d)
      (hdue : d ≤ clockMs ctx.env) (hclock : ctx.env.relUsec < 1000000) (hok : Ok b ctx.env)
      (h : b.backup P ctx = .ok (b', evs)) : TimedRun P Ok start (log ++ [(ctx.env, evs)]) b'
  | other {log : List (Environment × List ObsEvent)} {b : Timed} {o' : Observation}
      (hr : TimedRun P Ok start log b) (h : BackupIdle b.obs o') :
      TimedRun P Ok start log { b with obs := o' }

/-- The timer, if it runs, expires when the next backup is due, in the second in which it is. -/
def Timed.DueInTime (b : Timed) : Prop :=
  ∀ d, b.deadline = some d → (b.obs.lastBackupTime + b.obs.backupPeriod) * 1000 ≤ d ∧
    d < (b.obs.lastBackupTime + b.obs.backupPeriod + 1) * 1000

/-- Backups are made no more often than once in a period, and what is not backed up will be. -/
structure BackupsOk (start : Timed) (log : List (Environment × List ObsEvent)) (b : Timed) :
    Prop where
  apart : (backupTimes start log).IsChain fun a c => a + start.obs.backupPeriod ≤ c
  pending : b.obs.samples = savedSamples start log ∨ b.deadline.isSome = true
  due : b.DueInTime

/-- The 32-bit sums and products of `obs_ProcessAccepted` do not wrap. -/
structure Timed.Fits (b : Timed) (env : Environment) : Prop where
  clock : env.relSec < 2 ^ 32
  sum : b.obs.lastBackupTime + b.obs.backupPeriod < 2 ^ 32
  product : b.deadline = none →
    (b.obs.lastBackupTime + b.obs.backupPeriod - env.relSec) * 1000 < 2 ^ 32

/-! ### The Observation alone -/

/-- What an operation does to the Observation itself. -/
def forgetDeadline (result : Except Fault (Timed × List ObsEvent)) :
    Except Fault (Observation × List ObsEvent) :=
  result.map fun r => (r.1.obs, r.2)

theorem Timed.backup_refines : forgetDeadline (b.backup P ctx) = DataHub.backup P ctx b.obs := by
  unfold Timed.backup forgetDeadline
  cases DataHub.backup P ctx b.obs <;> rfl

theorem Timed.backup_ok : Returns (b.backup P ctx) fun r => r.1.Ok ∧ r.1.deadline = none := by
  unfold Timed.backup
  exact (backup_stops ctx b.obs).bind fun r hr => ⟨hr, rfl⟩

theorem Timed.save_refines (hok : b.Ok) :
    forgetDeadline (b.save P ctx) = obsProcessAccepted.save P ctx b.obs := by
  unfold Timed.save obsProcessAccepted.save
  split
  · rfl
  · show forgetDeadline (if b.next ≤ ctx.env.relSec then _ else _) =
      if b.next ≤ ctx.env.relSec then _ else _
    split
    · exact backup_refines
    · unfold Timed.Ok at hok
      cases hd : b.deadline with
      | none => rfl
      | some d =>
        rw [hd] at hok
        have hrun : b.obs = { b.obs with backupTimer := true } := by
          rw [← show b.obs.backupTimer = true from hok]
        show Except.ok (b.obs, []) = Except.ok ({ b.obs with backupTimer := true }, [])
        rw [← hrun]

theorem Timed.save_ok (hok : b.Ok) : Returns (b.save P ctx) fun r => r.1.Ok := by
  unfold Timed.save
  split
  · exact hok
  · split
    · exact backup_ok.mono fun _ hr => hr.1
    · split
      · exact rfl
      · exact hok

theorem retype_sameTimer : Returns (obsProcessAccepted.retype t o) fun r => SameTimer o r.1 := by
  unfold obsProcessAccepted.retype
  split
  · exact ⟨rfl, rfl, rfl⟩
  · exact (truncateBuffer_sameTimer o 0).bind fun r hr => ⟨hr.1, hr.2, hr.3⟩

theorem addToBuffer_sameTimer (o : Observation) (s : DataSample) :
    SameTimer o (addToBuffer o s) := by
  obtain ⟨_, _, _, _, h⟩ := addToBuffer_frame o s
  rw [h]
  exact ⟨rfl, rfl, rfl⟩

/-- A push does to the Observation what it does without the deadline, and keeps the two in step. -/
theorem Timed.processAccepted_refines (hok : b.Ok) :
    forgetDeadline (b.processAccepted P ctx t s) = obsProcessAccepted P ctx b.obs t s ∧
      Returns (b.processAccepted P ctx t s) fun r => r.1.Ok := by
  unfold Timed.processAccepted obsProcessAccepted
  split
  · exact ⟨rfl, hok⟩
  · have hretype := retype_sameTimer (o := b.obs) (t := t)
    cases hr : obsProcessAccepted.retype t b.obs with
    | error e => exact ⟨rfl, id⟩
    | ok r₁ =>
      have h₁ := hretype.result hr
      have htrunc := truncateBuffer_sameTimer (addToBuffer r₁.1 s) r₁.1.maxCount
      simp only [ok_bind]
      cases ht : truncateBuffer (addToBuffer r₁.1 s) r₁.1.maxCount with
      | error e => exact ⟨rfl, id⟩
      | ok r₂ =>
        have h₂ := htrunc.result ht
        have hok₂ : Timed.Ok { b with obs := r₂.1 } := by
          show r₂.1.backupTimer = _
          rw [h₂.backupTimer, (addToBuffer_sameTimer r₁.1 s).backupTimer, h₁.backupTimer]
          exact hok
        have hsave : forgetDeadline (Timed.save P ctx { b with obs := r₂.1 }) = _ :=
          Timed.save_refines hok₂
        simp only [ok_bind]
        refine ⟨?_, (Timed.save_ok hok₂).bind fun _ hr => hr⟩
        rw [← hsave]
        cases Timed.save P ctx { b with obs := r₂.1 } <;> rfl

theorem Timed.setBufferBackupPeriod_refines (hok : b.Ok) (seconds : UInt32) :
    forgetDeadline (b.setBufferBackupPeriod P ctx seconds) =
        obsSetBufferBackupPeriod P ctx b.obs seconds ∧
      Returns (b.setBufferBackupPeriod P ctx seconds) fun r => r.1.Ok := by
  unfold Timed.setBufferBackupPeriod obsSetBufferBackupPeriod
  unfold Timed.Ok at hok
  split
  · exact ⟨rfl, hok⟩
  · dsimp only
    split
    · exact ⟨rfl, hok⟩
    · split
      · exact ⟨rfl, rfl⟩
      · have hstopped : b.deadline = none ↔ b.obs.backupTimer = false := by
          rw [hok]
          cases b.deadline <;> simp
        split
        · next hidle =>
          have hidle' : b.obs.sampleList.isEmpty = true ∨ b.obs.backupPeriod = 0 ∨
              b.obs.backupTimer = false := by rwa [← hstopped]
          rw [if_pos hidle']
          exact ⟨rfl, hok⟩
        · next hidle =>
          have hidle' : ¬ (b.obs.sampleList.isEmpty = true ∨ b.obs.backupPeriod = 0 ∨
              b.obs.backupTimer = false) := by rwa [← hstopped]
          rw [if_neg hidle']
          split
          · next hlate =>
            refine ⟨Timed.backup_refines.trans (if_pos ?_).symm,
              Timed.backup_ok.mono fun _ h => h.1⟩
            exact hlate
          · next hlate =>
            refine ⟨(if_neg ?_).symm, ?_⟩
            · exact hlate
            · show b.obs.backupTimer = true
              simpa using fun hnone => hidle' (.inr (.inr hnone))

/-! ### What a push does to the schedule -/

/-- Nothing has been backed up. -/
def NothingSaved (o : Observation) (r : Observation × List ObsEvent) : Prop :=
  r.2.filterMap ObsEvent.saved = [] ∧ r.1.lastBackupTime = o.lastBackupTime

theorem truncateLoop_nothingSaved (k : Nat) (o : Observation) :
    Returns (truncateLoop k o) (NothingSaved o) := by
  induction k generalizing o with
  | zero => exact ⟨rfl, rfl⟩
  | succ k ih =>
    unfold truncateLoop popOldest
    split
    · exact id
    · show Returns (truncateLoop k _ >>= _) _
      exact (ih _).bind fun r hr => hr

theorem truncateBuffer_nothingSaved (o : Observation) (n : Nat) :
    Returns (truncateBuffer o n) (NothingSaved o) := truncateLoop_nothingSaved _ o

theorem retype_nothingSaved : Returns (obsProcessAccepted.retype t o) (NothingSaved o) := by
  unfold obsProcessAccepted.retype
  split
  · exact ⟨rfl, rfl⟩
  · exact (truncateBuffer_nothingSaved o 0).bind fun _ hr => hr

theorem lastBackupTime_addToBuffer (o : Observation) (s : DataSample) :
    (addToBuffer o s).lastBackupTime = o.lastBackupTime := by
  obtain ⟨_, _, _, _, h⟩ := addToBuffer_frame o s
  rw [h]

theorem backup_saved (hb : ∀ s ∈ o.samples, s.type = o.bufferedType) :
    Returns (DataHub.backup P ctx o) fun r => r.2.filterMap ObsEvent.saved = [o.samples] ∧
      r.1 = { o with backupTimer := false, lastBackupTime := ctx.env.relSec % 2 ^ 32 } := by
  have hfile : Returns (DataHub.backup P ctx o) fun r =>
      r.2.filterMap ObsEvent.saved = [o.samples] := by
    unfold DataHub.backup
    split
    · exact rfl
    · split
      · exact rfl
      · refine Sat.bind (Q := fun _ => True) (Returns.of_ok fun _ _ => trivial) fun content _ => ?_
        cases content <;> exact rfl
  exact Returns.of_ok fun r hr => ⟨hfile.result hr, (sat_backup (B := fun _ => True) hb).result hr⟩

/-- What a push does about backups, with the samples that it saves. -/
inductive SaveOutcome (env : Environment) (b b' : Timed) : List (List DataSample) → Prop
  | saved (hdue : b.next ≤ env.relSec) (hdeadline : b'.deadline = none)
      (hlast : b'.obs.lastBackupTime = env.relSec % 2 ^ 32) :
      SaveOutcome env b b' [b'.obs.samples]
  | started (hearly : env.relSec < b.next) (hnone : b.deadline = none)
      (hdeadline : b'.deadline = some (Timed.timerUntil env b.next))
      (hlast : b'.obs.lastBackupTime = b.obs.lastBackupTime) : SaveOutcome env b b' []
  | waiting (hrun : b.deadline.isSome = true) (hdeadline : b'.deadline = b.deadline)
      (hlast : b'.obs.lastBackupTime = b.obs.lastBackupTime) : SaveOutcome env b b' []

theorem Timed.save_outcome (hb : ∀ s ∈ b.obs.samples, s.type = b.obs.bufferedType)
    (hperiod : 0 < b.obs.backupPeriod) :
    Returns (b.save P ctx) fun r => SaveOutcome ctx.env b r.1 (r.2.filterMap ObsEvent.saved) := by
  unfold Timed.save
  rw [if_neg (by omega)]
  split
  · next hdue =>
    unfold Timed.backup
    refine (backup_saved hb).bind ?_
    rintro ⟨o, evs⟩ ⟨hsaved, ho⟩
    dsimp only at hsaved ho ⊢
    subst ho
    show SaveOutcome ctx.env b _ (evs.filterMap ObsEvent.saved)
    rw [hsaved]
    exact .saved hdue rfl rfl
  · next hearly =>
    split
    · next hnone => exact .started (by omega) (Option.isNone_iff_eq_none.mp hnone) rfl rfl
    · next hrun => exact .waiting (by simpa [Option.isSome_iff_ne_none] using hrun) rfl rfl

/-- Only the schedule matters to the outcome, not the buffer. -/
theorem SaveOutcome.of_same {b₂ : Timed} {saved : List (List DataSample)}
    (ho : SaveOutcome env b₂ b' saved) (hdeadline : b₂.deadline = b.deadline)
    (hlast : b₂.obs.lastBackupTime = b.obs.lastBackupTime)
    (hperiod : b₂.obs.backupPeriod = b.obs.backupPeriod) : SaveOutcome env b b' saved := by
  have hnext : b₂.next = b.next := by rw [Timed.next, hlast, hperiod, Timed.next]
  cases ho with
  | saved hdue hd hl => exact .saved (hnext ▸ hdue) hd hl
  | started hearly hnone hd hl =>
    exact .started (hnext ▸ hearly) (hdeadline ▸ hnone) (hnext ▸ hd) (hl.trans hlast)
  | waiting hrun hd hl => exact .waiting (hdeadline ▸ hrun) (hd.trans hdeadline) (hl.trans hlast)

theorem Timed.processAccepted_outcome (hbuffer : b.obs.BufferOk) (hs : s.type = t)
    (hperiod : 0 < b.obs.backupPeriod) (hmax : 0 < b.obs.maxCount) :
    Returns (b.processAccepted P ctx t s) fun r =>
      SaveOutcome ctx.env b r.1 (r.2.filterMap ObsEvent.saved) := by
  unfold Timed.processAccepted
  rw [if_neg (by omega)]
  have hretype := (sat_retype (B := fun _ => False) hbuffer.toBufferCore t).and
    (retype_nothingSaved (o := b.obs) (t := t))
  refine hretype.bind ?_
  rintro ⟨o₁, e₁⟩ ⟨⟨hc₁, ht₁, -, hk₁, -⟩, hn₁, hl₁⟩
  dsimp only at hc₁ ht₁ hk₁ hn₁ hl₁ ⊢
  have hc := hc₁.add (s := s) (by rw [hs, ht₁])
  have hk := hk₁.trans (sameSettings_addToBuffer o₁ s)
  have hlast := (lastBackupTime_addToBuffer o₁ s).trans hl₁
  have htruncate := (sat_truncateBuffer (B := fun _ => False) hc.count_eq o₁.maxCount).and
    (truncateBuffer_nothingSaved (addToBuffer o₁ s) o₁.maxCount)
  generalize addToBuffer o₁ s = o₂ at hc hk hlast htruncate
  refine htruncate.bind ?_
  rintro ⟨_, e₂⟩ ⟨⟨refCount, rfl⟩, hn₂, -⟩
  dsimp only at hn₂ ⊢
  refine (Timed.save_outcome (hc.keepLast o₁.maxCount refCount).typed ?_).bind ?_
  · exact hk.backupPeriod ▸ hperiod
  · rintro ⟨b₃, e₃⟩ h₃
    dsimp only at h₃ ⊢
    have hevents : (e₁ ++ (e₂ ++ e₃)).filterMap ObsEvent.saved = e₃.filterMap ObsEvent.saved := by
      simp [hn₁, hn₂]
    show SaveOutcome ctx.env b b₃ ((e₁ ++ (e₂ ++ e₃)).filterMap ObsEvent.saved)
    rw [hevents]
    exact h₃.of_same rfl hlast hk.backupPeriod

/-! ### Runs -/

theorem backupsIn_quiet (log : List (Environment × List ObsEvent))
    (hsaved : evs.filterMap ObsEvent.saved = []) :
    backupsIn (log ++ [(env, evs)]) = backupsIn log := by
  simp [backupsIn, hsaved]

theorem backupsIn_saved {samples : List DataSample} (log : List (Environment × List ObsEvent))
    (hsaved : evs.filterMap ObsEvent.saved = [samples]) :
    backupsIn (log ++ [(env, evs)]) = backupsIn log ++ [(env, samples)] := by
  simp [backupsIn, hsaved]

/-- What holds all the time in a run. -/
structure Scheduled (start : Timed) (log : List (Environment × List ObsEvent)) (b : Timed) : Prop
    extends BackupsOk start log b where
  ok : b.Ok
  bufferOk : b.obs.BufferOk
  backupPeriod : b.obs.backupPeriod = start.obs.backupPeriod
  maxCount : b.obs.maxCount = start.obs.maxCount
  last : (backupTimes start log).getLast? = some b.obs.lastBackupTime

/-- A backup that comes late enough. -/
theorem Scheduled.backedUp (hb : Scheduled start log b) (hclock : env.relSec < 2 ^ 32)
    (hlate : b.obs.lastBackupTime + b.obs.backupPeriod ≤ env.relSec)
    (hsaved : evs.filterMap ObsEvent.saved = [b'.obs.samples]) (hdeadline : b'.deadline = none)
    (hlast : b'.obs.lastBackupTime = env.relSec % 2 ^ 32) (hok : b'.Ok)
    (hbuffer : b'.obs.BufferOk) (hperiod : b'.obs.backupPeriod = b.obs.backupPeriod)
    (hmax : b'.obs.maxCount = b.obs.maxCount) : Scheduled start (log ++ [(env, evs)]) b' := by
  have htimes : backupTimes start (log ++ [(env, evs)])
      = backupTimes start log ++ [env.relSec] := by
    simp [backupTimes, backupsIn_saved log hsaved]
  rw [Nat.mod_eq_of_lt hclock] at hlast
  refine { apart := ?_, pending := .inl ?_, due := ?_, ok := hok, bufferOk := hbuffer,
           backupPeriod := hperiod.trans hb.backupPeriod, maxCount := hmax.trans hb.maxCount,
           last := ?_ }
  · rw [htimes]
    refine List.isChain_append.mpr ⟨hb.apart, .singleton _, ?_⟩
    intro last hmem now hnow
    rw [hb.last, Option.mem_some_iff] at hmem
    rw [List.head?_cons, Option.mem_some_iff] at hnow
    rw [← hmem, ← hnow, ← hb.backupPeriod]
    exact hlate
  · simp [savedSamples, backupsIn_saved log hsaved]
  · intro d hd
    rw [hdeadline] at hd
    cases hd
  · rw [htimes, List.getLast?_concat, hlast]

/-- A step without a backup. -/
theorem Scheduled.waiting (hb : Scheduled start log b) (hsaved : evs.filterMap ObsEvent.saved = [])
    (hpending : b'.obs.samples = b.obs.samples ∧ b'.deadline = b.deadline ∨
      b'.deadline.isSome = true) (hdue : b'.DueInTime)
    (hlast : b'.obs.lastBackupTime = b.obs.lastBackupTime) (hok : b'.Ok)
    (hbuffer : b'.obs.BufferOk) (hperiod : b'.obs.backupPeriod = b.obs.backupPeriod)
    (hmax : b'.obs.maxCount = b.obs.maxCount) : Scheduled start (log ++ [(env, evs)]) b' := by
  have hbackups : backupsIn (log ++ [(env, evs)]) = backupsIn log := backupsIn_quiet log hsaved
  refine { apart := ?_, pending := ?_, due := hdue, ok := hok, bufferOk := hbuffer,
           backupPeriod := hperiod.trans hb.backupPeriod, maxCount := hmax.trans hb.maxCount,
           last := ?_ }
  · rw [backupTimes, hbackups]
    exact hb.apart
  · rw [savedSamples, hbackups]
    rcases hpending with ⟨hsamples, hdeadline⟩ | hrun
    · rw [hsamples, hdeadline]
      exact hb.pending
    · exact .inr hrun
  · rw [backupTimes, hbackups, hlast]
    exact hb.last

theorem forgetDeadline_ok {result : Except Fault (Timed × List ObsEvent)}
    (h : result = .ok (b', evs)) : forgetDeadline result = .ok (b'.obs, evs) := by
  rw [h]
  rfl

/-- A timer that is started now expires in the second in which the next backup is due. -/
theorem timerUntil_inTime (hsum : b.obs.lastBackupTime + b.obs.backupPeriod < 2 ^ 32)
    (hproduct : (b.obs.lastBackupTime + b.obs.backupPeriod - env.relSec) * 1000 < 2 ^ 32)
    (hclock : env.relUsec < 1000000) (hearly : env.relSec ≤ b.next) :
    (b.obs.lastBackupTime + b.obs.backupPeriod) * 1000 ≤ Timed.timerUntil env b.next ∧
      Timed.timerUntil env b.next < (b.obs.lastBackupTime + b.obs.backupPeriod + 1) * 1000 := by
  have hnext : b.next = b.obs.lastBackupTime + b.obs.backupPeriod := Nat.mod_eq_of_lt hsum
  rw [hnext] at hearly ⊢
  rw [Timed.timerUntil, Nat.mod_eq_of_lt hproduct, clockMs]
  omega

theorem Scheduled.push (hb : Scheduled start log b) (hperiod : 0 < start.obs.backupPeriod)
    (hmax : 0 < start.obs.maxCount) (hs : s.type = t) (hclock : ctx.env.relUsec < 1000000)
    (hfits : b.Fits ctx.env) (h : b.processAccepted P ctx t s = .ok (b', evs)) :
    Scheduled start (log ++ [(ctx.env, evs)]) b' := by
  obtain ⟨hrefines, hok⟩ : forgetDeadline (b.processAccepted P ctx t s) = _ ∧ _ :=
    Timed.processAccepted_refines hb.ok
  have hpush : obsProcessAccepted P ctx b.obs t s = .ok (b'.obs, evs) :=
    hrefines ▸ forgetDeadline_ok h
  obtain ⟨hbuffer, -, -, hsame, -⟩ :=
    (sat_processAccepted (B := fun _ => False) hb.bufferOk hs).result hpush
  have hok' : b'.Ok := hok.result h
  have houtcome := (Timed.processAccepted_outcome hb.bufferOk hs
    (hb.backupPeriod ▸ hperiod) (hb.maxCount ▸ hmax)).result h
  dsimp only at houtcome hbuffer hsame
  generalize hsaved : evs.filterMap ObsEvent.saved = saved at houtcome
  cases houtcome with
  | saved hdue hdeadline hlast =>
    rw [Timed.next, Nat.mod_eq_of_lt hfits.sum] at hdue
    exact hb.backedUp hfits.clock hdue hsaved hdeadline hlast hok' hbuffer hsame.backupPeriod
      hsame.maxCount
  | started hearly hnone hdeadline hlast =>
    refine hb.waiting hsaved (.inr (by simp [hdeadline])) ?_ hlast hok' hbuffer
      hsame.backupPeriod hsame.maxCount
    intro d hd
    rw [hdeadline, Option.some_inj] at hd
    rw [← hd, hlast, hsame.backupPeriod]
    exact timerUntil_inTime hfits.sum (hfits.product hnone) hclock hearly.le
  | waiting hrun hdeadline hlast =>
    refine hb.waiting hsaved (.inr (hdeadline ▸ hrun)) ?_ hlast hok' hbuffer
      hsame.backupPeriod hsame.maxCount
    intro d hd
    rw [hlast, hsame.backupPeriod]
    exact hb.due d (hdeadline ▸ hd)

theorem Scheduled.expire (hb : Scheduled start log b) {d : Nat} (hd : b.deadline = some d)
    (hdue : d ≤ clockMs ctx.env) (hclock : ctx.env.relUsec < 1000000) (hfits : b.Fits ctx.env)
    (h : b.backup P ctx = .ok (b', evs)) : Scheduled start (log ++ [(ctx.env, evs)]) b' := by
  have hbackup : DataHub.backup P ctx b.obs = .ok (b'.obs, evs) :=
    Timed.backup_refines ▸ forgetDeadline_ok h
  obtain ⟨hsaved, ho⟩ := (backup_saved hb.bufferOk.typed).result hbackup
  obtain ⟨hok, hdeadline⟩ := Timed.backup_ok.result h
  dsimp only at hsaved ho hok hdeadline
  have hlate : b.obs.lastBackupTime + b.obs.backupPeriod ≤ ctx.env.relSec := by
    have := (hb.due d hd).1
    rw [clockMs] at hdue
    omega
  have hcore := hb.bufferOk
  have hbuffer : b'.obs.BufferOk := by
    rw [ho]
    exact ⟨⟨hcore.count_eq, hcore.inOrder, hcore.typed⟩, hcore.count_le, hcore.maxCount_lt⟩
  have hsamples : b'.obs.samples = b.obs.samples := by
    rw [ho]
    rfl
  refine hb.backedUp hfits.clock hlate ?_ hdeadline ?_ hok hbuffer ?_ ?_
  · rw [hsaved, hsamples]
  all_goals rw [ho]

theorem Scheduled.other (hb : Scheduled start log b) (h : BackupIdle b.obs o') :
    Scheduled start log { b with obs := o' } := by
  refine { apart := hb.apart, pending := h.samples ▸ hb.pending, due := ?_, ok := ?_,
           bufferOk := h.bufferOk, backupPeriod := h.backupPeriod.trans hb.backupPeriod,
           maxCount := h.maxCount.trans hb.maxCount,
           last := h.lastBackupTime.symm ▸ hb.last }
  · intro d hd
    show (o'.lastBackupTime + o'.backupPeriod) * 1000 ≤ d ∧ _
    rw [h.lastBackupTime, h.backupPeriod]
    exact hb.due d hd
  · show o'.backupTimer = _
    rw [h.backupTimer]
    exact hb.ok

theorem TimedRun.scheduled (hok : start.Ok) (hbuffer : start.obs.BufferOk)
    (hperiod : 0 < start.obs.backupPeriod) (hmax : 0 < start.obs.maxCount)
    (hdue : start.DueInTime) (hr : TimedRun P Timed.Fits start log b) : Scheduled start log b := by
  induction hr with
  | refl => exact { apart := .singleton _, pending := .inl rfl, due := hdue, ok := hok,
                    bufferOk := hbuffer, backupPeriod := rfl, maxCount := rfl, last := rfl }
  | push hr ctx t s hs hclock hfits h ih => exact ih.push hperiod hmax hs hclock hfits h
  | expire hr ctx d hd hlate hclock hfits h ih => exact ih.expire hd hlate hclock hfits h
  | other hr h ih => exact ih.other h

end MangOH.DataHub
