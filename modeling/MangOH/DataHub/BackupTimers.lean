import MangOH.DataHub.Reachability
import MangOH.DataHub.Scenario

/-! Backup timers: which Observations have one, and whom a timer belongs to. -/
namespace MangOH.DataHub

open Outcome

variable {P : Platform} {ctx : ObsContext} {o o' : Observation} {s : DataSample} {t : DataType}
  {evs : List ObsEvent} {h h' : Hub} {r : ResRef} {x : Resource}

/-- A backup timer runs only while there are backups to be made. -/
def Observation.TimerOk (o : Observation) : Prop :=
  o.backupTimer = true → 0 < o.backupPeriod ∧ 0 < o.maxCount

/-- The settings of backups, and the timer, are as before. -/
structure SameTimer (o o' : Observation) : Prop where
  backupTimer : o'.backupTimer = o.backupTimer
  backupPeriod : o'.backupPeriod = o.backupPeriod
  maxCount : o'.maxCount = o.maxCount

theorem SameTimer.timerOk (hs : SameTimer o o') (ht : o.TimerOk) : o'.TimerOk := by
  unfold Observation.TimerOk
  rw [hs.backupTimer, hs.backupPeriod, hs.maxCount]
  exact ht

theorem timerOk_stopped (hstop : o.backupTimer = false) : o.TimerOk := by
  intro hrun
  rw [hstop] at hrun
  cases hrun

/-! ### Functions of the Observation class -/

theorem truncateLoop_sameTimer (k : Nat) (o : Observation) :
    Returns (truncateLoop k o) fun r => SameTimer o r.1 := by
  induction k generalizing o with
  | zero => exact ⟨rfl, rfl, rfl⟩
  | succ k ih =>
    unfold truncateLoop popOldest
    split
    · exact id
    · show Returns (truncateLoop k _ >>= _) _
      exact (ih _).bind fun r hr => ⟨hr.1, hr.2, hr.3⟩

theorem truncateBuffer_sameTimer (o : Observation) (n : Nat) :
    Returns (truncateBuffer o n) fun r => SameTimer o r.1 := truncateLoop_sameTimer _ o

theorem backup_stops (ctx : ObsContext) (o : Observation) :
    Returns (backup P ctx o) fun r => r.1.backupTimer = false := by
  unfold backup
  split
  · exact rfl
  · split
    · exact rfl
    · refine Sat.bind (Q := fun _ => True) (Returns.of_ok fun _ _ => trivial) fun content _ => ?_
      cases content <;> exact rfl

theorem save_timerOk (hmax : 0 < o.maxCount) (ht : o.TimerOk) :
    Returns (obsProcessAccepted.save P ctx o) fun r => r.1.TimerOk := by
  unfold obsProcessAccepted.save
  split
  · exact ht
  · next hperiod =>
    split
    · exact (backup_stops ctx o).mono fun _ => timerOk_stopped
    · exact fun _ => ⟨Nat.pos_of_ne_zero hperiod, hmax⟩

theorem processAccepted_timerOk (ht : o.TimerOk) :
    Returns (obsProcessAccepted P ctx o t s) fun r => r.1.TimerOk := by
  have hretype : Returns (obsProcessAccepted.retype t o) fun r => SameTimer o r.1 := by
    unfold obsProcessAccepted.retype
    split
    · exact ⟨rfl, rfl, rfl⟩
    · exact (truncateBuffer_sameTimer o 0).bind fun r hr => ⟨hr.1, hr.2, hr.3⟩
  unfold obsProcessAccepted
  split
  · exact ht
  · next hmax =>
    refine hretype.bind ?_
    rintro ⟨o₁, e₁⟩ h₁
    dsimp only at h₁ ⊢
    refine (truncateBuffer_sameTimer _ _).bind ?_
    rintro ⟨o₂, e₂⟩ h₂
    have hsame : SameTimer o o₂ := by
      obtain ⟨_, _, _, _, hadd⟩ := addToBuffer_frame o₁ s
      rw [hadd] at h₂
      exact ⟨h₂.1.trans h₁.1, h₂.2.trans h₁.2, h₂.3.trans h₁.3⟩
    refine (save_timerOk ?_ (hsame.timerOk ht)).bind fun _ hr => hr
    rw [hsame.maxCount]
    exact Nat.pos_of_ne_zero hmax

theorem setTransform_timerOk (ty : TransformType) (ht : o.TimerOk) :
    Returns (obsSetTransform o ty) fun r => r.1.TimerOk := by
  refine (truncateBuffer_sameTimer _ 0).mono fun r hr => hr.timerOk ?_
  intro hrun
  obtain ⟨hperiod, hmax⟩ := ht hrun
  refine ⟨hperiod, ?_⟩
  dsimp only
  split
  · exact Nat.one_pos
  · exact hmax

/-- The buffer is given up only together with its backups. -/
theorem setBufferMaxCount_timerOk (count : UInt32) (ht : o.TimerOk) :
    Returns (obsSetBufferMaxCount P ctx o count) fun r => r.1.TimerOk := by
  unfold obsSetBufferMaxCount
  split
  · exact ht
  · have hdis : ∀ d, (if count.toNat = 0 ∧ 0 < o.backupPeriod then disableBackups P ctx o
        else (o, [])) = d → ({ d.1 with maxCount := count.toNat } : Observation).TimerOk := by
      rintro d rfl
      split
      · exact timerOk_stopped rfl
      · next hkeep =>
        intro hrun
        obtain ⟨hperiod, _⟩ := ht hrun
        exact ⟨hperiod, Nat.pos_of_ne_zero fun h0 => hkeep ⟨h0, hperiod⟩⟩
    generalize (if count.toNat = 0 ∧ 0 < o.backupPeriod then disableBackups P ctx o
        else (o, [])) = d at hdis
    exact (truncateBuffer_sameTimer _ _).bind fun r hr => hr.timerOk (hdis d rfl)

theorem setBufferBackupPeriod_timerOk (seconds : UInt32) (ht : o.TimerOk) :
    Returns (obsSetBufferBackupPeriod P ctx o seconds) fun r => r.1.TimerOk := by
  unfold obsSetBufferBackupPeriod
  split
  · exact ht
  · dsimp only
    split
    · next hmax =>
      intro hrun
      exact absurd hmax (Nat.ne_of_gt (ht hrun).2)
    · next hmax =>
      split
      · exact timerOk_stopped rfl
      · next hseconds =>
        have hkeep : ({ o with backupPeriod := seconds.toNat } : Observation).TimerOk :=
          fun _ => ⟨Nat.pos_of_ne_zero hseconds, Nat.pos_of_ne_zero hmax⟩
        split
        · exact hkeep
        · split
          · exact (backup_stops ctx _).mono fun _ => timerOk_stopped
          · exact hkeep

theorem timerOk_step (hs : ObsStep P o evs o') (ht : o.TimerOk) : o'.TimerOk := by
  cases hs with
  | process ctx t s _ hp => exact (processAccepted_timerOk ht).result hp
  | accept now => exact ht
  | settings => exact ht
  | transform ty hr => exact (setTransform_timerOk ty ht).result hr
  | maxCount ctx count hr => exact (setBufferMaxCount_timerOk count ht).result hr
  | backupPeriod ctx seconds hr => exact (setBufferBackupPeriod_timerOk seconds ht).result hr
  | backup ctx hr => exact timerOk_stopped ((backup_stops ctx o).result hr)
  | startRead ctx id hid startAfter script hr =>
    obtain ⟨_, _, rfl, _⟩ := (readBufferJson_frame ctx o id startAfter script).result hr
    exact ht
  | fdEvent dataType id hangUp script hr =>
    obtain ⟨_, _, rfl, _⟩ := (fdEventHandler_frame dataType o id hangUp script).result hr
    exact ht

/-- A backup that is restored starts no timer. -/
theorem restoreContent_stopped (env : Environment) (file : Bytes) :
    Returns (obsRestoreContent env obsCreate file) fun r => r.1.backupTimer = false := by
  refine ((sat_restoreContent (I := fun _ o => o.BufferCore ∧ o.backupTimer = false) ?_ ?_ ?_ env
    file).mono fun r hr => ?_).weaken fun _ hb => hb.elim
  · rintro k o s hs ⟨hc, hstop⟩
    obtain ⟨_, _, _, _, hadd⟩ := addToBuffer_frame o s
    exact ⟨hc.add hs, by rw [hadd]; exact hstop⟩
  · rintro t n _
    refine ⟨⟨rfl, List.isChain_nil, ?_⟩, rfl⟩
    simp [Observation.samples, obsCreate]
  · rintro k o ⟨hc, hstop⟩
    refine (sat_truncateBuffer hc.count_eq 0).mono ?_
    rintro ⟨_, evs⟩ ⟨refCount, rfl⟩
    exact ⟨⟨hc.keepLast 0 refCount, hstop⟩, rfl⟩
  · obtain ⟨⟨_, _, hstop⟩, _⟩ := hr
    exact hstop

theorem timerOk_invariant : ResourceInvariant P (fun e => ∀ q ev, e = .obs q ev → True) fun _ x =>
    ∀ o, x.cls = .observation o → o.TimerOk := by
  refine observation_invariant (fun _ => True) (timerOk_stopped rfl) ?_ ?_
  · intro env content o evs newest hr _
    exact timerOk_stopped ((restoreContent_stopped env content).result hr)
  · intro o evs o' hrun hevs ht
    clear hevs
    induction hrun with
    | refl => exact ht
    | step _ hs ih => exact timerOk_step hs ih

/-! ### Timers and the resources they belong to -/

/-- The number of backup timers whose context pointer is a resource. -/
def Hub.backupTimers (h : Hub) (r : ResRef) : Nat :=
  (if (h.resources r).any (·.backupTimer) then 1 else 0) + h.orphanTimers.count r

/-- Every backup timer is the only one of an Observation that is alive and makes backups, and none
expires on an Observation that has been destroyed. -/
structure TimersOwned (P : Platform) (h : Hub) : Prop where
  owned : ∀ r, 0 < h.backupTimers r → h.backupTimers r = 1 ∧ ∃ x o, h.resources r = some x ∧
    x.cls = .observation o ∧ 0 < o.backupPeriod ∧ 0 < o.maxCount
  expires : ∀ r, ∃ h', backupTimerExpired P h r = .ok h'

/-- No Observation is destroyed while its backup timer is running. -/
def sparesTimers : Event → Bool
  | .obs _ (.destructing backupTimer) => !backupTimer
  | _ => true

theorem orphanTimers_micro (hwf : WellFormed h) (hm : Micro P h h')
    (hok : ∀ e ∈ h'.log, sparesTimers e = true) : h'.orphanTimers = h.orphanTimers := by
  cases hm with
  | ambient hsame => exact hsame.orphanTimers
  | startUpdate => rfl
  | endUpdate => rfl
  | edit hx he hedit hreads hsame hlog => exact hsame.orphanTimers
  | addHandler => rfl
  | removeHandler => rfl
  | unlink dest hu => exact ((routesOnly_unlinkSource h dest).result hu).orphanTimers
  | link dest src fuel hd hnone hloop hl =>
    exact ((routesOnly_linkSource _ dest src).result hl).orphanTimers
  | addChild parent name ha =>
    obtain ⟨p, _, _, hh⟩ := (addChild_frame h parent name).result ha
    dsimp only at hh
    rw [hh]
  | @replace _ e r entry et y he hre hy hr =>
    obtain ⟨_, hrep⟩ := replaceResource_replaced hwf he hr
    cases hold : entry.resourcePtr with
    | none => exact (hrep.attach hold).2.2
    | some old =>
      obtain ⟨x, evs, hx, _, _, hkeep⟩ := hrep.move old hold
      obtain ⟨x', hx', rfl⟩ := hwf.resourceOf e entry old he hold
      rw [Function.update_of_ne (hwf.ne_nextRes hx')] at hx
      cases hx.symm.trans hx'
      exact (hkeep (hre.notObservation (hwf.cls old x entry hx he))).2
  | @remove h₁ _ r x entry evs hx he hsrc hdest hsame hlog hfreed hrel htimer =>
    have hrel' := (releaseEntry_frame _ _ _).result hrel
    rw [hrel'.orphanTimers, hsame.orphanTimers]
    have hstopped : x.backupTimer = false := by
      unfold Resource.backupTimer
      split
      · next o ho =>
        have hmem : .obs r (.destructing o.backupTimer) ∈ h'.log := by
          rw [hrel'.log, hlog]
          exact List.mem_append_right _ (List.mem_map_of_mem (htimer o ho))
        have := hok _ hmem
        simpa [sparesTimers] using this
      · rfl
    simp [removed, freed, hstopped]

/-- Backup timers are owned as long as no Observation is destroyed while its timer is running. -/
theorem timers_owned (hr : Reachable P h) (hok : ∀ e ∈ h.log, sparesTimers e = true) :
    TimersOwned P h := by
  have hwf := reachable_wellFormed hr
  have hnone : h.orphanTimers = [] :=
    reachable_induction _ (Q := fun h => h.orphanTimers = []) (fun _ _ => rfl)
      (fun _ _ hwf hm hok hq => (orphanTimers_micro hwf hm hok).trans hq) hr hok
  have htimer : ∀ r x o, h.resources r = some x → x.cls = .observation o → o.TimerOk := by
    intro r x o hx ho
    obtain ⟨entry, he, _⟩ := hwf.entryOf r x hx
    exact reachable_each timerOk_invariant hr (fun _ _ _ _ _ => trivial) r x entry hx he o ho
  refine ⟨fun r hpos => ?_, fun r => ?_⟩
  · unfold Hub.backupTimers at hpos ⊢
    rw [hnone] at hpos ⊢
    cases hx : h.resources r with
    | none => simp [hx] at hpos
    | some x =>
      cases hrun : x.backupTimer with
      | false => simp [hx, hrun] at hpos
      | true =>
        refine ⟨by simp [hrun], ?_⟩
        unfold Resource.backupTimer at hrun
        split at hrun
        · next o ho => exact ⟨x, o, rfl, ho, htimer r x o hx ho hrun⟩
        · cases hrun
  · unfold backupTimerExpired
    cases hx : h.resources r with
    | none => exact ⟨h, by simp [hnone]; rfl⟩
    | some x =>
      dsimp only
      split
      · next o ho =>
        split
        · obtain ⟨entry, he, _⟩ := hwf.entryOf r x hx
          have htyped := (hwf.typed r x entry hx he).buffer o ho
          obtain ⟨p, hp, _⟩ := Sat.exists_ok (x := backup P (obsContext h x) o) (sat_backup
            htyped.typed)
          refine ⟨(h.emitObs r p.2).setResource r { x with cls := .observation p.1 }, ?_⟩
          simp only [modifyObs, getResource_ok.mpr hx, bind, Except.bind, ho, hp]
          rfl
        · exact ⟨h, rfl⟩
      · exact ⟨h, rfl⟩

/-- The backups of an Observation wait for their period to pass. -/
def waitingBackupRun : List Op :=
  [.adminCreateObs (ascii "o"),
   .adminSetBufferMaxCount (ascii "o") 2,
   .adminSetBufferBackupPeriod (ascii "o") 60,
   .adminPush (ascii "/obs/o") (double 3) (.numeric (double 7))]

theorem timers_owned_waitingBackupRun : ∃ h, Reachable smallPlatform h ∧
    h.backupTimers 0 = 1 ∧ TimersOwned smallPlatform h := by
  have hrun : smallRunEnds waitingBackupRun (fun h =>
      decide (h.backupTimers 0 = 1) && h.log.all sparesTimers) = true := by
    decide +kernel
  obtain ⟨h, hr, hp⟩ := exists_of_smallRunEnds hrun
  rw [Bool.and_eq_true, decide_eq_true_iff] at hp
  exact ⟨h, hr, hp.1, timers_owned hr (List.all_eq_true.mp hp.2)⟩

theorem timers_owned_fails : ∃ h, Reachable smallPlatform h ∧ ¬ TimersOwned smallPlatform h := by
  have hrun : smallRunEnds (waitingBackupRun ++ [.adminDeleteObs (ascii "o")]) (fun h =>
      decide (0 < h.backupTimers 0) && (h.resources 0).isNone) = true := by
    decide +kernel
  obtain ⟨h, hr, hp⟩ := exists_of_smallRunEnds hrun
  rw [Bool.and_eq_true, decide_eq_true_iff] at hp
  refine ⟨h, hr, fun ht => ?_⟩
  obtain ⟨_, x, o, hx, _⟩ := ht.owned 0 hp.1
  rw [hx] at hp
  cases hp.2

end MangOH.DataHub
