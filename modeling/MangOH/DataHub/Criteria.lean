import MangOH.DataHub.Doubles
import MangOH.DataHub.Filtering

/-! The filtering criteria of an Observation, as its documentation has them, and what
`obs_ShouldAccept` makes of them. -/
namespace MangOH.DataHub

open Outcome

variable {P : Platform} {h h' : Hub} {ctx : ObsContext} {o : Observation} {x : Resource}
  {s previous : DataSample} {t : DataType} {u : CString} {r : ResRef} {d : Double}
  {current : Option DataSample} {accepted : Option Nat} {overridden : Bool}

/-- The relative time in milliseconds, before it is cut to 32 bits. -/
def clockMs (env : Environment) : Nat := env.relSec * 1000 + env.relUsec / 1000

theorem getRelativeTimeMs_eq (env : Environment) :
    getRelativeTimeMs env = clockMs env % 2 ^ 32 := rfl

/-- The number that the limits apply to: Booleans count as 0 and 1. -/
def Value.number : Value → Option Double
  | .numeric d => some d
  | .boolean b => some (if b then .one else .zero)
  | _ => none

/-- A number that the limits keep, boundaries included: in the live band, or out of the dead band
if the low limit is the higher one. -/
structure InBand (o : Observation) (d : Double) : Prop where
  live : o.highLimit.lt o.lowLimit = false →
    (o.lowLimit.isNaN = false → o.lowLimit.le d = true) ∧
      (o.highLimit.isNaN = false → d.le o.highLimit = true)
  dead : o.highLimit.lt o.lowLimit = true → d.le o.highLimit = true ∨ o.lowLimit.le d = true

/-- A change that `changeBy` lets through. Values of different types, and triggers, always pass. -/
def Differs (P : Platform) (changeBy : Double) : Value → Value → Prop
  | .numeric new, .numeric old =>
    (P.sub new old).isNaN = true ∨ changeBy.le (P.sub new old).fabs = true
  | .boolean new, .boolean old => new ≠ old
  | .string new, .string old => new ≠ old
  | .json new, .json old => new ≠ old
  | _, _ => True

/-- All criteria that are set. A NAN is neither below nor above a limit. `accepted` is the clock at
the last acceptance. -/
structure MeetsCriteria (P : Platform) (env : Environment) (o : Observation)
    (current : Option DataSample) (accepted : Option Nat) (s : DataSample) : Prop where
  limits : ∀ d, s.value.number = some d → d.isNaN = true ∨ InBand o d
  change : ∀ previous, current = some previous → o.changeBy.isSet = true →
    Differs P o.changeBy s.value previous.value
  period : ∀ last, accepted = some last → o.minPeriod.isSet = true →
    (P.ofNat (clockMs env - last)).lt (P.mul o.minPeriod .thousand) = false

/-- The Observation has a current value if and only if it has accepted a push, it remembers when,
and the clock has not come round since. -/
structure RemembersPush (env : Environment) (o : Observation) (current : Option DataSample)
    (accepted : Option Nat) : Prop where
  current : current.isSome = accepted.isSome
  recorded : ∀ last, accepted = some last → o.lastPushTime = last % 2 ^ 32
  recent : ∀ last, accepted = some last → last ≤ clockMs env ∧ clockMs env < last + 2 ^ 32

/-! ### The three checks -/

theorem withinLimits_iff : withinLimits o d = true ↔ d.isNaN = true ∨ InBand o d := by
  cases hd : d.isNaN with
  | true =>
    have hlt : ∀ a : Double, d.lt a = false ∧ a.lt d = false := fun a => by simp [Double.lt, hd]
    unfold withinLimits
    split <;> simp [hlt]
  | false =>
    simp only [Bool.false_eq_true, false_or]
    unfold withinLimits
    cases hdead : o.highLimit.lt o.lowLimit with
    | true =>
      obtain ⟨hhigh, hlow, _⟩ := Double.lt_eq_true.mp hdead
      have hsides := Double.lt_eq_false_iff hd hlow
      have hsides' := Double.lt_eq_false_iff hhigh hd
      simp only [hhigh, hlow, Bool.not_false, Bool.and_self, if_true, Bool.not_eq_true',
        Bool.and_eq_false_iff, hsides, hsides']
      constructor
      · exact fun h => ⟨fun hlive => by simp [hlive] at hdead, fun _ => h.symm⟩
      · exact fun h => (h.dead hdead).symm
    | false =>
      simp only [Bool.and_false, Bool.false_eq_true, if_false, Bool.and_eq_true, Bool.not_eq_true',
        Bool.and_eq_false_iff, Bool.not_eq_false']
      have hlow : (o.lowLimit.isNaN = true ∨ d.lt o.lowLimit = false) ↔
          (o.lowLimit.isNaN = false → o.lowLimit.le d = true) := by
        cases hn : o.lowLimit.isNaN with
        | true => simp
        | false => simp [Double.lt_eq_false_iff hd hn]
      have hhigh : (o.highLimit.isNaN = true ∨ o.highLimit.lt d = false) ↔
          (o.highLimit.isNaN = false → d.le o.highLimit = true) := by
        cases hn : o.highLimit.isNaN with
        | true => simp
        | false => simp [Double.lt_eq_false_iff hn hd]
      rw [hlow, hhigh]
      constructor
      · exact fun h => ⟨fun _ => h, fun hlt => by simp [hlt] at hdead⟩
      · exact fun h => h.live hdead

theorem limitsPass_eq (htype : s.type = t)
    (hboolean : t = .boolean → o.lowLimit.isNaN = true ∧ o.highLimit.isNaN = true) :
    ∃ b, obsShouldAccept.limitsPass o t s = .ok b ∧
      (b = true ↔ ∀ d, s.value.number = some d → d.isNaN = true ∨ InBand o d) := by
  subst htype
  unfold obsShouldAccept.limitsPass
  obtain ⟨ts, v, via, hops⟩ := s
  cases v with
  | numeric d =>
    refine ⟨withinLimits o d, rfl, ?_⟩
    rw [withinLimits_iff]
    simp [Value.number]
  | boolean b =>
    obtain ⟨hlow, hhigh⟩ := hboolean rfl
    refine ⟨true, rfl, iff_of_true rfl fun d _ => .inr ⟨fun _ => ?_, fun hlt => ?_⟩⟩
    · simp [hlow, hhigh]
    · simp [Double.lt, hlow] at hlt
  | trigger => exact ⟨true, rfl, by simp [Value.number]⟩
  | string text => exact ⟨true, rfl, by simp [Value.number]⟩
  | json text => exact ⟨true, rfl, by simp [Value.number]⟩

theorem bytes_inj (a b : Text) : a.bytes = b.bytes ↔ a = b :=
  ⟨Text.ext_bytes, fun h => by rw [h]⟩

theorem changedEnough_eq (hset : o.changeBy.isSet = true) (htype : s.type = t)
    (hprevious : previous.type = t) :
    ∃ b, changedEnough P o t s previous = .ok b ∧
      (b = true ↔ Differs P o.changeBy s.value previous.value) := by
  subst htype
  obtain ⟨ts, v, via, hops⟩ := s
  obtain ⟨ts', v', via', hops'⟩ := previous
  cases v with
  | trigger => exact ⟨true, rfl, by simp [Differs]⟩
  | numeric new =>
    cases v' with
    | numeric old =>
      have hchange : o.changeBy.isNaN = false := by
        simp only [Double.isSet, Bool.and_eq_true, Bool.not_eq_true'] at hset
        exact hset.2
      refine ⟨!((P.sub new old).fabs.lt o.changeBy), rfl, ?_⟩
      simp only [Differs, Bool.not_eq_true']
      cases hnan : (P.sub new old).isNaN with
      | true => simp [Double.lt, hnan]
      | false =>
        have hfabs : (P.sub new old).fabs.isNaN = false := by simp [hnan]
        simp [Double.lt_eq_false_iff hfabs hchange]
    | _ => cases hprevious
  | boolean new =>
    cases v' with
    | boolean old => exact ⟨new != old, rfl, by simp [Differs]⟩
    | _ => cases hprevious
  | string new =>
    cases v' with
    | string old =>
      refine ⟨new.bytes != old.bytes, rfl, ?_⟩
      simp only [bne_iff_ne, Differs]
      exact not_congr (bytes_inj new old)
    | _ => cases hprevious
  | json new =>
    cases v' with
    | json old =>
      refine ⟨new.bytes != old.bytes, rfl, ?_⟩
      simp only [bne_iff_ne, Differs]
      exact not_congr (bytes_inj new old)
    | _ => cases hprevious

theorem changePasses_eq (htype : s.type = t) (hprevious : previous.type = ctx.currentType) :
    ∃ b, obsShouldAccept.changePasses P ctx o overridden t s previous = .ok b ∧
      (b = true ↔ (o.changeBy.isSet = true →
        overridden = false ∧ Differs P o.changeBy s.value previous.value)) := by
  unfold obsShouldAccept.changePasses
  cases hset : o.changeBy.isSet with
  | false => exact ⟨true, rfl, by simp⟩
  | true =>
    cases overridden with
    | true => exact ⟨false, rfl, by simp⟩
    | false =>
      simp only [Bool.not_true, Bool.false_eq_true, if_false, true_and, forall_true_left]
      split
      · next ht => exact changedEnough_eq hset htype (hprevious.trans ht.symm)
      · next ht =>
        refine ⟨true, rfl, iff_of_true rfl ?_⟩
        rw [← htype, ← hprevious] at ht
        obtain ⟨ts, v, via, hops⟩ := s
        obtain ⟨ts', v', via', hops'⟩ := previous
        cases v <;> cases v' <;> trivial

theorem elapsed_eq {last : Nat} (hlast : o.lastPushTime = last % 2 ^ 32)
    (hrecent : last ≤ clockMs ctx.env ∧ clockMs ctx.env < last + 2 ^ 32) :
    (getRelativeTimeMs ctx.env + 2 ^ 32 - o.lastPushTime) % 2 ^ 32 = clockMs ctx.env - last := by
  rw [hlast, getRelativeTimeMs_eq]
  omega

/-- `obs_ShouldAccept` applies the criteria; besides it rejects everything while an override is in
effect and `changeBy` is set. -/
theorem shouldAccept_eq (htype : s.type = t)
    (hcurrent : ∀ previous, current = some previous → previous.type = ctx.currentType)
    (hboolean : t = .boolean → o.lowLimit.isNaN = true ∧ o.highLimit.isNaN = true)
    (hclock : o.minPeriod.isSet = true → RemembersPush ctx.env o current accepted) :
    ∃ verdict, obsShouldAccept P ctx o current overridden t s = .ok verdict ∧
      (verdict.isSome = true ↔ MeetsCriteria P ctx.env o current accepted s ∧
        ¬ (current.isSome = true ∧ o.changeBy.isSet = true ∧ overridden = true)) ∧
      ∀ o', verdict = some o' → o' = { o with lastPushTime := getRelativeTimeMs ctx.env } := by
  obtain ⟨inLimits, hpass, hlimits⟩ := limitsPass_eq htype hboolean
  unfold obsShouldAccept
  rw [hpass]
  cases inLimits with
  | false =>
    refine ⟨none, rfl, iff_of_false (by simp) fun hmeets => ?_, fun o' ho' => by cases ho'⟩
    exact absurd (hlimits.mpr hmeets.1.limits) (by simp)
  | true =>
    have hlimits := hlimits.mp rfl
    cases current with
    | none =>
      refine ⟨some _, rfl, iff_of_true rfl ⟨⟨hlimits, by simp, fun last hlast hset => ?_⟩, by simp⟩,
        fun o' ho' => by cases ho'; rfl⟩
      have := (hclock hset).current
      rw [hlast] at this
      cases this
    | some previous =>
      obtain ⟨changed, hchanged, hchange⟩ :
          ∃ b, obsShouldAccept.changePasses P ctx o overridden t s previous = .ok b ∧ _ :=
        changePasses_eq htype (hcurrent previous rfl)
      simp only [ok_bind, Bool.not_true, Bool.false_eq_true, if_false, hchanged]
      cases changed with
      | false =>
        refine ⟨none, rfl, iff_of_false (by simp) fun hmeets => ?_, fun o' ho' => by cases ho'⟩
        refine absurd (hchange.mpr fun hset => ⟨?_, hmeets.1.change previous rfl hset⟩) (by simp)
        by_contra hover
        exact hmeets.2 ⟨rfl, hset, by simpa using hover⟩
      | true =>
        have hchange := hchange.mp rfl
        have hnot : ¬ ((some previous).isSome = true ∧ o.changeBy.isSet = true ∧
            overridden = true) := by
          rintro ⟨_, hset, hover⟩
          rw [(hchange hset).1] at hover
          cases hover
        have hdiffers : ∀ p, some previous = some p → o.changeBy.isSet = true →
            Differs P o.changeBy s.value p.value := by
          rintro p ⟨rfl⟩ hset
          exact (hchange hset).2
        cases hset : o.minPeriod.isSet with
        | false =>
          refine ⟨some _, rfl, iff_of_true rfl ⟨⟨hlimits, hdiffers, fun _ _ h => ?_⟩, hnot⟩,
            fun o' ho' => by cases ho'; rfl⟩
          rw [hset] at h
          cases h
        | true =>
          obtain ⟨last, rfl⟩ : ∃ last, accepted = some last :=
            Option.isSome_iff_exists.mp ((hclock hset).current.symm.trans rfl)
          have hclock := hclock hset
          rw [elapsed_eq (hclock.recorded last rfl) (hclock.recent last rfl)]
          cases hearly : (P.ofNat (clockMs ctx.env - last)).lt (P.mul o.minPeriod .thousand) with
          | true =>
            refine ⟨none, rfl, iff_of_false (by simp) fun hmeets => ?_, fun o' ho' => by cases ho'⟩
            have := hmeets.1.period last rfl hset
            rw [hearly] at this
            cases this
          | false =>
            refine ⟨some _, rfl, iff_of_true rfl ⟨⟨hlimits, hdiffers, ?_⟩, hnot⟩,
              fun o' ho' => by cases ho'; rfl⟩
            rintro last' ⟨rfl⟩ _
            exact hearly

/-! ### Rejected pushes -/

/-- What is left of an Observation's record apart from its buffer and the state of its backups. -/
structure SameBut (o o' : Observation) : Prop extends SameSettings o o' where
  lastPushTime : o'.lastPushTime = o.lastPushTime

/-- What an Observation does besides when it buffers a sample: it drops samples from its buffer, and
may save the buffer in its own backup file. -/
def Buffering (P : Platform) (ctx : ObsContext) : ObsEvent → Prop
  | .evicting _ | .backingUp .. => True
  | .committed path _ => getBackupFilePath P (maxBackupFilePathBytes P) ctx = some path
  | _ => False

theorem buffering_truncateLoop (k : Nat) (o : Observation) :
    Returns (truncateLoop k o) fun p => ∀ ev ∈ p.2, Buffering P ctx ev := by
  induction k generalizing o with
  | zero => exact fun ev hev => absurd hev List.not_mem_nil
  | succ k ih =>
    unfold truncateLoop popOldest
    cases o.sampleList with
    | nil => exact id
    | cons e l => exact (ih _).bind fun p hp => List.forall_mem_cons.mpr ⟨trivial, hp⟩

theorem buffering_backup (o : Observation) :
    Returns (backup P ctx o) fun p => ∀ ev ∈ p.2, Buffering P ctx ev := by
  have hstarted : ∀ ev ∈ [ObsEvent.backingUp ctx.currentType o.bufferedType o.samples],
      Buffering P ctx ev := List.forall_mem_singleton.mpr trivial
  unfold backup
  cases hpath : getBackupFilePath P (maxBackupFilePathBytes P) ctx with
  | none => exact hstarted
  | some path =>
    dsimp only
    split
    · exact hstarted
    · refine Returns.skip fun content => ?_
      cases content with
      | none => exact hstarted
      | some content =>
        exact List.forall_mem_cons.mpr
          ⟨trivial, List.forall_mem_singleton.mpr hpath⟩

theorem buffering_processAccepted (o : Observation) (t : DataType) (s : DataSample) :
    Returns (obsProcessAccepted P ctx o t s) fun p => ∀ ev ∈ p.2, Buffering P ctx ev := by
  have hnone : ∀ ev ∈ ([] : List ObsEvent), Buffering P ctx ev :=
    fun ev hev => absurd hev List.not_mem_nil
  unfold obsProcessAccepted
  split
  · exact hnone
  · have htruncate : ∀ o n, Returns (truncateBuffer o n) fun p => ∀ ev ∈ p.2, Buffering P ctx ev :=
      fun o n => buffering_truncateLoop _ o
    have hretype : Returns (obsProcessAccepted.retype t o) fun p =>
        ∀ ev ∈ p.2, Buffering P ctx ev := by
      unfold obsProcessAccepted.retype
      split
      · exact hnone
      · exact (htruncate o 0).bind fun p hp => hp
    refine hretype.bind fun p hp => ?_
    refine (htruncate _ _).bind fun q hq => ?_
    have hsave : Returns (obsProcessAccepted.save P ctx q.1) fun p =>
        ∀ ev ∈ p.2, Buffering P ctx ev := by
      unfold obsProcessAccepted.save
      split
      · exact hnone
      · split
        · exact buffering_backup q.1
        · exact hnone
    exact hsave.bind fun w hw =>
      List.forall_mem_append.mpr ⟨hp, List.forall_mem_append.mpr ⟨hq, hw⟩⟩

theorem obsAdmit_frame {p : Pushed} (hx : Typed x) (ho : x.cls = .observation o) (hs : s.type = t)
    (hreject : filtersReject P ctx x t s = true) (hp : obsAdmit P ctx x o t s = .ok p) :
    p.sample = none ∧ (∀ ev ∈ p.events, Buffering P ctx ev) ∧
      ∃ o', p.res = { x with cls := .observation o' } ∧ SameBut o o' := by
  rcases obsAdmit_steps hp with ⟨hnone, rfl⟩ | ⟨t', s₁, o₁, s₂, verdict, hsteps⟩
  · have hshown : shown P ctx o t s = .ok none := by
      unfold shown
      rw [hnone]
      rfl
    simp [filtersReject, ho, hshown] at hreject
  · have htype := ((sat_doJsonExtraction (B := fun _ => False) (fun hb => hb.elim) hs).result
      hsteps.extracted t' s₁ rfl).1
    obtain ⟨_, _, _, hset, hlast⟩ := (sat_processAccepted (B := fun _ => False)
      (hx.buffer o ho) htype).result hsteps.processed
    have hevents := (buffering_processAccepted o t' s₁).result hsteps.processed
    obtain ⟨v, hv, rfl⟩ := judged_before hset hlast hsteps.judged
    simp only [filtersReject, ho, hsteps.shown, hv] at hreject
    cases v with
    | some accepted => simp at hreject
    | none => exact ⟨hsteps.sample, hevents, o₁, hsteps.res, hset, hlast⟩

/-- All that is left of a push to `r` that the filters reject: a record of the call, and what it is
to buffer a sample. Every other part of the hub is as before. -/
structure TurnedAway (P : Platform) (h h' : Hub) (r : ResRef) (x : Resource) (o o' : Observation)
    (t : DataType) (u : CString) (s : DataSample) (evs : List ObsEvent) : Prop where
  settings : SameBut o o'
  buffering : ∀ ev ∈ evs, Buffering P (obsContext h x) ev
  hub : h' = { h with
    resources := Function.update h.resources r (some { x with cls := .observation o' })
    files := evs.foldl Hub.applyFileEvent h.files
    log := h.log ++ [.receiving r .observation s, .pushing r (obsContext h x) x t u s] ++
      evs.map (.obs r) }

/-- A push that the filters reject changes nothing in the hub but the buffer of the Observation that
it is made to, the state of its backups and its backup file. -/
theorem resPush_rejected_frame {fuel : Nat} (hx : h.resources r = some x) (htyped : Typed x)
    (ho : x.cls = .observation o) (het : h.entryType x = .ok .observation) (hs : s.type = t)
    (hreject : filtersReject P (obsContext h x) x t { s with via := u } = true)
    (hp : resPush P fuel h r t u s = .ok h') :
    ∃ o' evs, TurnedAway P h h' r x o o' t u s evs := by
  cases fuel with
  | zero => cases hp
  | succ fuel =>
    unfold resPush at hp
    simp only [getResource_ok.mpr hx, het, ok_bind, bind_eq_ok] at hp
    obtain ⟨p, hlocal, hp⟩ := hp
    unfold resPushLocal admission at hlocal
    simp only [ho, bind_eq_ok] at hlocal
    obtain ⟨a, ha, hlocal⟩ := hlocal
    obtain ⟨hnone, hevents, o', hres, hsame⟩ :=
      obsAdmit_frame (s := { s with via := u }) htyped ho hs hreject ha
    rw [hnone] at hlocal
    cases hlocal
    rw [hnone] at hp
    cases hp
    refine ⟨o', p.events, hsame, hevents, ?_⟩
    simp only [hres, Hub.emit, Hub.emitObs, Hub.setResource, List.append_assoc, List.cons_append,
      List.nil_append]

/-- The filters accept a sample if and only if it meets all criteria that are set, unless an
override is in effect and `changeBy` is set; a rejected sample changes nothing in the filters, and
in the hub at most the buffer of the Observation and its backups. Left aside are Booleans under limits, and
what the Observation remembers of the last push. -/
theorem filter_criteria (P : Platform) :
    (∀ ctx o current accepted overridden t s, s.type = t →
      (∀ previous, current = some previous → previous.type = ctx.currentType) →
      (t = .boolean → o.lowLimit.isNaN = true ∧ o.highLimit.isNaN = true) →
      (o.minPeriod.isSet = true → RemembersPush ctx.env o current accepted) →
      ∃ verdict, obsShouldAccept P ctx o current overridden t s = .ok verdict ∧
        (verdict.isSome = true ↔ MeetsCriteria P ctx.env o current accepted s ∧
          ¬ (current.isSome = true ∧ o.changeBy.isSet = true ∧ overridden = true)) ∧
        ∀ o', verdict = some o' → o' = { o with lastPushTime := getRelativeTimeMs ctx.env }) ∧
    ∀ h r x o fuel t u s h', Reachable P h → h.resources r = some x →
      h.entryType x = .ok .observation → x.cls = .observation o → s.type = t →
      filtersReject P (obsContext h x) x t { s with via := u } = true →
      resPush P fuel h r t u s = .ok h' →
      ∃ o' evs, TurnedAway P h h' r x o o' t u s evs := by
  refine ⟨fun ctx o current accepted overridden t s htype hcurrent hboolean hclock => ?_,
    fun h r x o fuel t u s h' hr hx het ho hs hreject hp => ?_⟩
  · exact shouldAccept_eq htype hcurrent hboolean hclock
  · obtain ⟨entry, he, _⟩ := bind_eq_ok.mp het
    have htyped := (reachable_wellFormed hr).typed r x entry hx (getEntry_ok.mp he)
    exact resPush_rejected_frame hx htyped ho het hs hreject hp

/-- A live band from 10 to 20, kept limits included; changes of 2 and more, not more often than
every 3 seconds. -/
def bandObservation : Observation :=
  { obsCreate with
    lowLimit := double 10
    highLimit := double 20
    changeBy := double 2
    minPeriod := double 3
    lastPushTime := 46000 }

/-- The filters of the first resource reject this push, which gets through. -/
def Hub.turnsAway (h : Hub) (s : DataSample) : Bool :=
  match h.resources 0 with
  | some x =>
    passes (h.entryType x) (· = .observation) &&
      filtersReject smallPlatform (obsContext h x) x s.type { s with via := [] } &&
      passes (resPush smallPlatform 8 h 0 s.type [] s) fun _ => true
  | none => false

/-- 20 is accepted, 4 seconds after 15 was; 12 is turned away by a high limit of 10. -/
theorem filter_criteria_limitedRun :
    MeetsCriteria smallPlatform smallEnvironment bandObservation
      (some ⟨double 46, .numeric (double 15), [], 0⟩) (some 46000)
      ⟨double 50, .numeric (double 20), [], 0⟩ ∧
    ∃ h x o h' o', Reachable smallPlatform h ∧ h.resources 0 = some x ∧ x.cls = .observation o ∧
      resPush smallPlatform 8 h 0 .numeric [] ⟨double 4, .numeric (double 12), [], 0⟩ = .ok h' ∧
      ∃ evs, TurnedAway smallPlatform h h' 0 x o o' .numeric []
        ⟨double 4, .numeric (double 12), [], 0⟩ evs := by
  obtain ⟨haccept, hpush⟩ := filter_criteria smallPlatform
  refine ⟨?_, ?_⟩
  · obtain ⟨verdict, hverdict, hmeets, _⟩ := haccept ⟨smallEnvironment, none, .numeric⟩
      bandObservation (some ⟨double 46, .numeric (double 15), [], 0⟩) (some 46000) false .numeric
      ⟨double 50, .numeric (double 20), [], 0⟩ rfl (by rintro _ ⟨⟩; rfl) (by decide)
      (fun _ => ⟨rfl, by rintro _ ⟨⟩; decide, by rintro _ ⟨⟩; decide⟩)
    refine (hmeets.mp ?_).1
    have hsome : passes (obsShouldAccept smallPlatform ⟨smallEnvironment, none, .numeric⟩
        bandObservation (some ⟨double 46, .numeric (double 15), [], 0⟩) false .numeric
        ⟨double 50, .numeric (double 20), [], 0⟩) Option.isSome = true := by
      decide +kernel
    rw [hverdict] at hsome
    exact hsome
  · have hrun : smallRunEnds limitedRun (fun h =>
        h.turnsAway ⟨double 4, .numeric (double 12), [], 0⟩ &&
        (h.observation 0).isSome) = true := by
      decide +kernel
    obtain ⟨h, hr, hp⟩ := exists_of_smallRunEnds hrun
    obtain ⟨hp, hobs⟩ := Bool.and_eq_true_iff.mp hp
    obtain ⟨o, ho⟩ := Option.isSome_iff_exists.mp hobs
    obtain ⟨x, hx, hcls⟩ := observation_eq_some ho
    simp only [Hub.turnsAway, hx, Bool.and_eq_true, passes_iff] at hp
    obtain ⟨⟨⟨et, het, hobs⟩, hreject⟩, h', hpushed, _⟩ := hp
    rw [of_decide_eq_true hobs] at het
    obtain ⟨o', evs, haway⟩ := hpush h 0 x o 8 _ [] _ h' hr hx het hcls rfl hreject hpushed
    exact ⟨h, x, o, h', o', hr, hx, hcls, hpushed, evs, haway⟩

/-- An override of 5, with `changeBy` set. -/
def pinnedRun : List Op :=
  [.adminCreateObs (ascii "o"),
   .adminSetChangeBy (ascii "o") (double 1),
   .adminSetOverride (ascii "/obs/o") (.numeric (double 5))]

/-- The Observation has no filter but `changeBy`, and its current value is this one. -/
def onlyChangeBy (x : Resource) (o : Observation) (value : Value) : Bool :=
  o.lowLimit.isNaN && o.highLimit.isNaN && !o.minPeriod.isSet && decide (o.changeBy = double 1) &&
    x.currentValue.any fun s => decide (s.value = value)

theorem meetsCriteria_of_onlyChangeBy {env : Environment} {value : Value}
    (honly : onlyChangeBy x o value = true) (hdiffers : Differs P (double 1) s.value value) :
    MeetsCriteria P env o x.currentValue none s := by
  simp only [onlyChangeBy, Bool.and_eq_true, Bool.not_eq_true', decide_eq_true_eq,
    Option.any_eq_true] at honly
  obtain ⟨⟨⟨⟨hlow, hhigh⟩, hperiod⟩, hchange⟩, current, hcurrent, hvalue⟩ := honly
  refine ⟨fun d _ => .inr ⟨fun _ => ?_, fun hlt => ?_⟩, fun previous hprevious _ => ?_, ?_⟩
  · simp [hlow, hhigh]
  · simp [Double.lt, hlow] at hlt
  · cases hcurrent.symm.trans hprevious
    rw [hchange, hvalue]
    exact hdiffers
  · intro last hlast
    cases hlast

/-- The first resource rejects 9, and no criterion says so. -/
def Hub.rejectsNine (h : Hub) : Bool :=
  (h.resources 0).any fun x => (h.observation 0).any fun o =>
    onlyChangeBy x o (.numeric (double 5)) &&
      passes (obsShouldAccept smallPlatform (obsContext h x) o x.currentValue
        x.overrideValue.isSome .numeric ⟨double 9, .numeric (double 9), [], 0⟩) Option.isNone

/-- A push of 9 differs enough from the current value 5, but is rejected. -/
theorem filter_criteria_fails : ∃ h x o, Reachable smallPlatform h ∧ h.resources 0 = some x ∧
    x.cls = .observation o ∧
    MeetsCriteria smallPlatform h.env o x.currentValue none ⟨double 9, .numeric (double 9), [], 0⟩ ∧
    obsShouldAccept smallPlatform (obsContext h x) o x.currentValue x.overrideValue.isSome .numeric
      ⟨double 9, .numeric (double 9), [], 0⟩ = .ok none := by
  have hrun : smallRunEnds pinnedRun Hub.rejectsNine = true := by decide +kernel
  obtain ⟨h, hr, hp⟩ := exists_of_smallRunEnds hrun
  obtain ⟨x, hx, hp⟩ := (Option.any_eq_true _ _).mp hp
  obtain ⟨o, ho, hp⟩ := (Option.any_eq_true _ _).mp hp
  obtain ⟨honly, hreject⟩ := Bool.and_eq_true_iff.mp hp
  obtain ⟨x', hx', hcls⟩ := observation_eq_some ho
  cases hx.symm.trans hx'
  obtain ⟨verdict, hverdict, hnone⟩ := passes_iff.mp hreject
  cases verdict with
  | some o' => cases hnone
  | none =>
    refine ⟨h, x, o, hr, hx, hcls, meetsCriteria_of_onlyChangeBy honly ?_, hverdict⟩
    exact .inr (by decide)

end MangOH.DataHub
