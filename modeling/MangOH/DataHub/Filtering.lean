import MangOH.DataHub.Reachability
import MangOH.DataHub.Scenario

/-! Filters and buffers: the samples in a buffer have passed the filters, as long as none is pushed
there that does not. -/
namespace MangOH.DataHub

open Outcome BoundedQueue

variable {P : Platform} {h h' : Hub} {ctx : ObsContext} {o o' : Observation} {x x' : Resource}
  {s s₀ : DataSample} {t : DataType} {u : CString} {r : ResRef}

/-- The sample that `res_Push` shows to the filters, unless extraction makes it ignore the push. -/
def shown (P : Platform) (ctx : ObsContext) (o : Observation) (t : DataType) (s : DataSample) :
    Except Fault (Option (DataType × DataSample)) := do
  match ← obsDoJsonExtraction P ctx.env o t s with
  | none => pure none
  | some (t, s) => do
    let (o, _) ← obsProcessAccepted P ctx o t s
    let s ← obsApplyTransform P ctx.env o t s
    pure (some (t, s))

/-- The filters of an Observation reject what a push shows them. -/
def filtersReject (P : Platform) (ctx : ObsContext) (x : Resource) (t : DataType)
    (s : DataSample) : Bool :=
  match x.cls with
  | .observation o =>
    match shown P ctx o t s with
    | .ok (some (t, s)) =>
      match obsShouldAccept P ctx o x.currentValue x.overrideValue.isSome t s with
      | .ok none => true
      | _ => false
    | _ => false
  | _ => false

/-- The resource is an Observation with a buffer. -/
def Resource.buffers (x : Resource) : Bool :=
  match x.cls with
  | .observation o => decide (0 < o.maxCount)
  | _ => false

/-- No sample that the filters reject is pushed to an Observation with a buffer. -/
def keepsFiltered (P : Platform) : Event → Bool
  | .pushing _ ctx before t u s =>
    !(before.buffers && filtersReject P ctx before t { s with via := u })
  | _ => true

/-- How a sample has got into the buffer of a resource: it was pushed, and the filters accepted it
then, or it comes from a backup file. -/
inductive Provenance (P : Platform) (h : Hub) (r : ResRef) (s : DataSample) : Prop
  | pushed (ctx : ObsContext) (before : Resource) (t t' : DataType) (u : CString)
      (s₀ : DataSample) (o o' : Observation) (hlog : .pushing r ctx before t u s₀ ∈ h.log)
      (ho : before.cls = .observation o)
      (hshown : shown P ctx o t { s₀ with via := u } = .ok (some (t', s)))
      (haccept : obsShouldAccept P ctx o before.currentValue before.overrideValue.isSome t' s =
        .ok (some o'))
  | restored (env : Environment) (content : Bytes) (o : Observation) (evs : List ObsEvent)
      (newest : Option DataSample) (hlog : .restoring r env content ∈ h.log)
      (hrestore : obsRestoreContent env obsCreate content = .ok (o, evs, newest))
      (hs : s ∈ o.samples)

theorem Provenance.mono (hp : Provenance P h r s) (hlog : ∀ e ∈ h.log, e ∈ h'.log) :
    Provenance P h' r s := by
  cases hp with
  | pushed ctx before t t' u s₀ o o' hmem ho hshown haccept =>
    exact .pushed ctx before t t' u s₀ o o' (hlog _ hmem) ho hshown haccept
  | restored env content o evs newest hmem hrestore hs =>
    exact .restored env content o evs newest (hlog _ hmem) hrestore hs

/-- Buffers without a transform hold accepted samples only, and a push that the filters reject
changes nothing: neither the buffer nor the state of backups nor the current value. -/
structure AcceptedOnly (P : Platform) (Ok : Event → Prop) (h : Hub) : Prop where
  buffered : ∀ r x o, h.resources r = some x → x.cls = .observation o →
    o.transformType = .none → ∀ s ∈ o.samples, Provenance P h r s
  rejected : ∀ fuel (h₁ h₂ : Hub) r x t u s, h₁.resources r = some x →
    h₁.entryType x = .ok .observation →
    filtersReject P (obsContext h₁ x) x t { s with via := u } = true →
    Ok (.pushing r (obsContext h₁ x) x t u s) →
    resPush P fuel h₁ r t u s = .ok h₂ → h₂.resources = h₁.resources ∧ h₂.files = h₁.files

/-! ### One push to an Observation -/

/-- The verdict of the filters depends on their settings and the time of the last push alone. -/
theorem shouldAccept_congr {currentValue : Option DataSample} {overridden : Bool}
    (hset : SameSettings o o') (hlast : o'.lastPushTime = o.lastPushTime) :
    obsShouldAccept P ctx o' currentValue overridden t s =
      (obsShouldAccept P ctx o currentValue overridden t s).map fun verdict =>
        verdict.map fun _ => { o' with lastPushTime := getRelativeTimeMs ctx.env } := by
  have hlimits : obsShouldAccept.limitsPass o' t s = obsShouldAccept.limitsPass o t s := by
    unfold obsShouldAccept.limitsPass withinLimits
    rw [hset.highLimit, hset.lowLimit]
  have hchanged : ∀ previous, changedEnough P o' t s previous = changedEnough P o t s previous := by
    intro previous
    unfold changedEnough
    rw [hset.changeBy]
  have hpasses : ∀ previous, obsShouldAccept.changePasses P ctx o' overridden t s previous =
      obsShouldAccept.changePasses P ctx o overridden t s previous := by
    intro previous
    unfold obsShouldAccept.changePasses
    rw [hset.changeBy, hchanged]
  unfold obsShouldAccept
  rw [hlimits]
  cases obsShouldAccept.limitsPass o t s with
  | error e => rfl
  | ok inLimits =>
    cases inLimits with
    | false => rfl
    | true =>
      cases currentValue with
      | none => rfl
      | some previous =>
        simp only [ok_bind, Bool.not_true, Bool.false_eq_true, if_false, hpasses,
          hset.minPeriod, hlast]
        cases obsShouldAccept.changePasses P ctx o overridden t s previous with
        | error e => rfl
        | ok changed =>
          simp only [ok_bind]
          split
          · rfl
          · split <;> rfl

/-- What the first part of `res_Push` has done once extraction has let a sample through. -/
structure AdmitSteps (P : Platform) (ctx : ObsContext) (x : Resource) (o : Observation)
    (t : DataType) (s : DataSample) (p : Pushed) (t' : DataType) (s₁ : DataSample)
    (o₁ : Observation) (s₂ : DataSample) (verdict : Option Observation) : Prop where
  extracted : obsDoJsonExtraction P ctx.env o t s = .ok (some (t', s₁))
  processed : obsProcessAccepted P ctx o t' s₁ = .ok (o₁, p.events)
  transformed : obsApplyTransform P ctx.env o₁ t' s₁ = .ok s₂
  judged : obsShouldAccept P ctx o₁ x.currentValue x.overrideValue.isSome t' s₂ = .ok verdict
  res : p.res = { x with cls := .observation (verdict.getD o₁) }
  sample : p.sample = verdict.map fun _ => (t', s₂)

theorem obsAdmit_steps {p : Pushed} (hp : obsAdmit P ctx x o t s = .ok p) :
    obsDoJsonExtraction P ctx.env o t s = .ok none ∧ p = ⟨x, [], none⟩ ∨
    ∃ t' s₁ o₁ s₂ verdict, AdmitSteps P ctx x o t s p t' s₁ o₁ s₂ verdict := by
  unfold obsAdmit at hp
  simp only [bind_eq_ok] at hp
  obtain ⟨extracted, hex, hp⟩ := hp
  cases extracted with
  | none =>
    cases hp
    exact .inl ⟨hex, rfl⟩
  | some q =>
    obtain ⟨t', s₁⟩ := q
    simp only [bind_eq_ok] at hp
    obtain ⟨⟨o₁, evs⟩, hprocess, s₂, htransform, verdict, hjudge, hp⟩ := hp
    refine .inr ⟨t', s₁, o₁, s₂, verdict, ?_⟩
    cases verdict <;> cases hp <;> exact ⟨hex, hprocess, htransform, hjudge, rfl, rfl⟩

theorem AdmitSteps.shown {p : Pushed} {t' : DataType} {s₁ s₂ : DataSample} {o₁ : Observation}
    {verdict : Option Observation} (hs : AdmitSteps P ctx x o t s p t' s₁ o₁ s₂ verdict) :
    shown P ctx o t s = .ok (some (t', s₂)) := by
  unfold DataHub.shown
  rw [hs.extracted]
  simp only [ok_bind, hs.processed, hs.transformed]
  rfl

theorem judged_before {verdict : Option Observation} {currentValue : Option DataSample}
    {overridden : Bool} (hset : SameSettings o o') (hlast : o'.lastPushTime = o.lastPushTime)
    (hj : obsShouldAccept P ctx o' currentValue overridden t s = .ok verdict) :
    ∃ v, obsShouldAccept P ctx o currentValue overridden t s = .ok v ∧
      verdict = v.map fun _ => { o' with lastPushTime := getRelativeTimeMs ctx.env } := by
  rw [shouldAccept_congr hset hlast] at hj
  cases hv : obsShouldAccept P ctx o currentValue overridden t s with
  | error e =>
    rw [hv] at hj
    cases hj
  | ok v =>
    rw [hv] at hj
    cases hj
    exact ⟨v, rfl, rfl⟩

theorem mem_bufferAfter (hs : s ∈ bufferAfter o t s₀) :
    s ∈ o.samples ∨ s = s₀ ∧ 0 < o.maxCount := by
  unfold bufferAfter at hs
  split at hs
  · exact .inl hs
  · next hpos =>
    have hmem := List.mem_of_mem_drop hs
    have hold : s ∈ (if o.bufferedType = t then o.samples else []) → s ∈ o.samples := by
      split
      · exact id
      · exact fun h => absurd h List.not_mem_nil
    rcases push_cases olderThan (if o.bufferedType = t then o.samples else []) s₀ with hp | hp <;>
      rw [hp] at hmem
    · exact .inl (hold hmem)
    · rcases List.mem_append.mp hmem with hmem | hmem
      · exact .inl (hold hmem)
      · exact .inr ⟨List.mem_singleton.mp hmem, Nat.pos_of_ne_zero hpos⟩

/-- A sample that is in the buffer after a push was there before, or the filters accept it. -/
theorem buffered_admit {p : Pushed} (hx : Typed x) (ho : x.cls = .observation o) (hs : s.type = t)
    (hkeep : (x.buffers && filtersReject P ctx x t s) = false)
    (hp : obsAdmit P ctx x o t s = .ok p) (hc : p.res.cls = .observation o')
    (hnone : o'.transformType = .none) (hs₀ : s₀ ∈ o'.samples) :
    o.transformType = .none ∧ s₀ ∈ o.samples ∨
    ∃ t' accepted, shown P ctx o t s = .ok (some (t', s₀)) ∧
      obsShouldAccept P ctx o x.currentValue x.overrideValue.isSome t' s₀ =
        .ok (some accepted) := by
  rcases obsAdmit_steps hp with ⟨_, rfl⟩ | ⟨t', s₁, o₁, s₂, verdict, hsteps⟩
  · cases ho.symm.trans hc
    exact .inl ⟨hnone, hs₀⟩
  · have htype := ((sat_doJsonExtraction (B := fun _ => False) (fun hb => hb.elim) hs).result
      hsteps.extracted t' s₁ rfl).1
    obtain ⟨_, hbuffer, _, hset, hlast⟩ := (sat_processAccepted (B := fun _ => False)
      (hx.buffer o ho) htype).result hsteps.processed
    obtain ⟨v, hv, rfl⟩ := judged_before hset hlast hsteps.judged
    have hsame : o'.transformType = o.transformType ∧ o'.samples = o₁.samples := by
      rw [hsteps.res] at hc
      cases v <;> cases hc <;> exact ⟨hset.transformType, rfl⟩
    rw [hsame.1] at hnone
    rw [hsame.2, hbuffer] at hs₀
    rcases mem_bufferAfter hs₀ with hold | ⟨rfl, hpos⟩
    · exact .inl ⟨hnone, hold⟩
    · have htrans := hsteps.transformed
      unfold obsApplyTransform at htrans
      rw [hset.transformType, hnone] at htrans
      cases htrans
      refine .inr ⟨t', ?_⟩
      have hshown := hsteps.shown
      cases v with
      | some accepted => exact ⟨accepted, hshown, hv⟩
      | none =>
        -- a rejected sample is not pushed to an Observation with a buffer
        simp [Resource.buffers, filtersReject, ho, hpos, hshown, hv] at hkeep

theorem cls_conform {env : Environment} {et : EntryType}
    {result : Resource × Option (DataType × DataSample)}
    (hc : conform P env et x t u s = .ok result) : result.1.cls = x.cls := by
  have hio : ∀ q : Resource × Option (DataType × DataSample),
      (if u ≠ [] ∧ x.units ≠ [] ∧ u ≠ x.units then pure (x, none)
      else do
        let fixed ← ioPointGetDataType x
        let coerced ← doTypeCoercion P env fixed t s
        pure (x, some (fixed, coerced))) = Except.ok q → q.1.cls = x.cls := by
    intro q hq
    split at hq
    · cases hq
      rfl
    · simp only [bind_eq_ok] at hq
      obtain ⟨_, _, _, _, hq⟩ := hq
      cases hq
      rfl
  unfold conform at hc
  cases et with
  | input => exact hio result hc
  | output => exact hio result hc
  | nameSpace => cases hc
  | placeholder =>
    cases hc
    dsimp only
    split <;> rfl
  | observation =>
    cases hc
    dsimp only
    split <;> rfl

/-- After extraction, buffering and filters `res_Push` leaves the class of the resource alone. -/
theorem resPushLocal_admission {et : EntryType} {p : Pushed}
    (hp : resPushLocal P ctx et x t u s = .ok p) :
    ∃ a, admission P ctx et x t { s with via := u } = .ok a ∧ p.res.cls = a.res.cls := by
  unfold resPushLocal at hp
  simp only [bind_eq_ok] at hp
  obtain ⟨a, ha, hp⟩ := hp
  refine ⟨a, ha, ?_⟩
  split at hp
  · cases hp
    rfl
  · split at hp
    · cases hp
      rfl
    · simp only [bind_eq_ok] at hp
      obtain ⟨⟨t', u', s'⟩, _, result, hconform, hp⟩ := hp
      cases hp
      have hcls := cls_conform hconform
      exact hcls

/-! ### The invariant -/

/-- A new transform dumps the buffer. -/
theorem transform_step {evs : List ObsEvent} (hb : o.BufferOk) (hs : ObsStep P o evs o') :
    o'.transformType = o.transformType ∨ o'.samples = [] := by
  cases hs with
  | process ctx t s hs hp =>
    obtain ⟨_, _, _, hset, _⟩ := (sat_processAccepted (B := fun _ => False) hb hs).result hp
    exact .inl hset.transformType
  | accept now => exact .inl rfl
  | settings => exact .inl rfl
  | transform ty ht =>
    obtain ⟨refCount, maxCount, rfl, _⟩ :=
      (sat_setTransform (B := fun _ => False) hb ty).result ht
    exact .inr rfl
  | maxCount ctx count hc =>
    obtain ⟨_, _, _, _, _, htrans, _⟩ :=
      (sat_setBufferMaxCount (B := fun _ => False) hb count).result hc
    exact .inl htrans
  | backupPeriod ctx seconds hp =>
    obtain ⟨_, _, _, rfl⟩ :=
      (sat_setBufferBackupPeriod (B := fun _ => False) hb.typed seconds).result hp
    exact .inl rfl
  | backup ctx hback =>
    cases (sat_backup (B := fun _ => False) hb.typed).result hback
    exact .inl rfl
  | startRead ctx id hid startAfter script hr =>
    obtain ⟨_, _, rfl, _⟩ := (readBufferJson_frame ctx o id startAfter script).result hr
    exact .inl rfl
  | fdEvent dataType id hangUp script hf =>
    obtain ⟨_, _, rfl, _⟩ := (fdEventHandler_frame dataType o id hangUp script).result hf
    exact .inl rfl

/-- What an edit leaves in a buffer without a transform was there before, has been accepted, or
comes from a file. -/
theorem buffered_edit {updating : Bool} {et : EntryType} {evs : List Event}
    (hcls : ClassOk et x.cls) (hx : Typed x) (hedit : Edit P r updating et x evs x')
    (hlog : ∀ e ∈ evs, e ∈ h.log) (hok : ∀ e ∈ evs, keepsFiltered P e = true)
    (ho' : x'.cls = .observation o') (hnone : o'.transformType = .none) (hs : s ∈ o'.samples) :
    (∃ o, x.cls = .observation o ∧ o.transformType = .none ∧ s ∈ o.samples) ∨
    Provenance P h r s := by
  have hobs : ∀ {o o₁ : Observation} {obsEvs : List ObsEvent}, x.cls = .observation o →
      ObsStep P o obsEvs o₁ → o₁.samples ⊆ o.samples → o₁ = o' →
      ∃ o, x.cls = .observation o ∧ o.transformType = .none ∧ s ∈ o.samples := by
    rintro o _ obsEvs ho hstep hkept rfl
    rcases transform_step (hx.buffer o ho) hstep with htrans | hempty
    · exact ⟨o, ho, htrans ▸ hnone, hkept hs⟩
    · rw [hempty] at hs
      cases hs
  cases hedit with
  | push ctx t u s₁ hs₁ p hctx hp hlocal =>
    obtain ⟨a, ha, hcls'⟩ := resPushLocal_admission hlocal
    rw [cls_accepted, hcls'] at ho'
    unfold admission at ha
    split at ha
    · cases ho : x.cls with
      | observation o =>
        rw [ho] at ha
        have hkeep := hok _ (List.mem_cons_of_mem _ List.mem_cons_self)
        simp only [keepsFiltered, Bool.not_eq_true'] at hkeep
        have haccepts := buffered_admit (s := { s₁ with via := u }) hx ho hs₁ hkeep ha ho' hnone hs
        rcases haccepts with ⟨htrans, hold⟩ | ⟨t', accepted, hshown, haccept⟩
        · exact .inl ⟨o, rfl, htrans, hold⟩
        · exact .inr (.pushed ctx x t t' u s₁ o accepted
            (hlog _ (List.mem_cons_of_mem _ List.mem_cons_self)) ho hshown haccept)
      | placeholder => simp [ho, ClassOk] at hcls
      | ioPoint => simp [ho, ClassOk] at hcls
    · cases ha
      exact .inl ⟨o', ho', hnone, hs⟩
  | override =>
    rw [Resource.withOverride, cls_accept] at ho'
    exact .inl ⟨o', ho', hnone, hs⟩
  | unoverride =>
    rw [cls_unoverride] at ho'
    exact .inl ⟨o', ho', hnone, hs⟩
  | default =>
    rw [cls_withDefault] at ho'
    exact .inl ⟨o', ho', hnone, hs⟩
  | optional t mandatory hc => cases ho'
  | observe ho hstep hkept => exact .inl (hobs ho hstep hkept (by cases ho'; rfl))
  | configure ho hstep setting hset v hv hkept =>
    exact .inl (hobs ho hstep hkept (by cases ho'; rfl))
  | extraction ho hstep hkept => exact .inl (hobs ho hstep hkept (by cases ho'; rfl))
  | restore env content ho hrestore =>
    cases ho'
    exact .inr (.restored env content _ _ _ (hlog _ List.mem_cons_self) hrestore hs)
  | _ => exact .inl ⟨o', ho', hnone, hs⟩

theorem reachable_buffered (hr : Reachable P h) (hok : ∀ e ∈ h.log, keepsFiltered P e = true) :
    ∀ r x o, h.resources r = some x → x.cls = .observation o → o.transformType = .none →
      ∀ s ∈ o.samples, Provenance P h r s := by
  refine reachable_induction _ (Q := fun h => ∀ r x o, h.resources r = some x →
    x.cls = .observation o → o.transformType = .none → ∀ s ∈ o.samples, Provenance P h r s)
    ?_ ?_ hr hok
  · intro env files r x o hx
    cases hx
  · intro h h' hwf hm hok ih r x' o' hx' ho' hnone s hs
    have hkeep : ∀ e ∈ h.log, e ∈ h'.log := by
      obtain ⟨evs, hlog⟩ := log_micro hwf hm
      intro e he
      rw [hlog]
      exact List.mem_append_left _ he
    have hfrom := class_micro hwf hm hx'
    rw [ho'] at hfrom
    cases hfrom with
    | same hx hc => exact (ih r _ o' hx hc hnone s hs).mono hkeep
    | @edit x x₁ entry evs hx he hedit hlog hc =>
      have hevs : ∀ e ∈ evs, e ∈ h'.log := by
        intro e he
        rw [hlog]
        exact List.mem_append_right _ he
      rcases buffered_edit (hwf.cls r x entry hx he) (hwf.typed r x entry hx he) hedit hevs
        (fun e he => hok e (hevs e he)) hc hnone hs with ⟨o, ho, htrans, hold⟩ | hp
      · exact (ih r x o hx ho htrans s hold).mono hkeep
      · exact hp
    | created hy hc =>
      rw [hy.observation_eq hc] at hs
      cases hs

/-! ### Rejected pushes -/

/-- Without a buffer nothing is done before the filters. -/
theorem obsAdmit_rejected {p : Pushed} (ho : x.cls = .observation o)
    (hreject : filtersReject P ctx x t s = true) (hbuffers : x.buffers = false)
    (hp : obsAdmit P ctx x o t s = .ok p) : p = ⟨x, [], none⟩ := by
  rcases obsAdmit_steps hp with ⟨_, rfl⟩ | ⟨t', s₁, o₁, s₂, verdict, hsteps⟩
  · rfl
  · have hzero : o.maxCount = 0 := by simpa [Resource.buffers, ho] using hbuffers
    have hprocess := hsteps.processed
    unfold obsProcessAccepted at hprocess
    rw [if_pos hzero] at hprocess
    simp only [pure, Except.pure, Except.ok.injEq, Prod.mk.injEq] at hprocess
    obtain ⟨rfl, hevents⟩ := hprocess
    have hjudged := hsteps.judged
    simp only [filtersReject, ho, hsteps.shown] at hreject
    cases verdict with
    | some accepted => simp [hjudged] at hreject
    | none =>
      have hres := hsteps.res
      have hsample := hsteps.sample
      obtain ⟨res, events, sample⟩ := p
      dsimp only at hres hevents hsample
      subst hres hevents hsample
      simp [← ho]

theorem resPush_rejected {fuel : Nat} {h₁ h₂ : Hub} (hx : h₁.resources r = some x)
    (het : h₁.entryType x = .ok .observation)
    (hreject : filtersReject P (obsContext h₁ x) x t { s with via := u } = true)
    (hbuffers : x.buffers = false) (hp : resPush P fuel h₁ r t u s = .ok h₂) :
    h₂.resources = h₁.resources ∧ h₂.files = h₁.files := by
  cases fuel with
  | zero => cases hp
  | succ fuel =>
    unfold resPush at hp
    simp only [getResource_ok.mpr hx, het, ok_bind, bind_eq_ok] at hp
    obtain ⟨p, hlocal, hp⟩ := hp
    cases ho : x.cls with
    | observation o =>
      unfold resPushLocal admission at hlocal
      simp only [ho, bind_eq_ok] at hlocal
      obtain ⟨a, ha, hlocal⟩ := hlocal
      rw [obsAdmit_rejected ho hreject hbuffers ha] at hlocal
      cases hlocal
      cases hp
      refine ⟨?_, rfl⟩
      simp [Hub.setResource, Hub.emitObs, Hub.emit, ← hx]
    | placeholder => simp [filtersReject, ho] at hreject
    | ioPoint => simp [filtersReject, ho] at hreject

/-- Only accepted samples are buffered, and rejected pushes change nothing, in every run in which
no sample that the filters reject is pushed to an Observation with a buffer. -/
theorem accepted_only (hr : Reachable P h) (hok : ∀ e ∈ h.log, keepsFiltered P e = true) :
    AcceptedOnly P (keepsFiltered P · = true) h := by
  refine ⟨reachable_buffered hr hok, ?_⟩
  intro fuel h₁ h₂ r x t u s hx het hreject hkeep hp
  have hbuffers : x.buffers = false := by simpa [keepsFiltered, hreject] using hkeep
  exact resPush_rejected hx het hreject hbuffers hp

/-- An Observation with a buffer and an upper limit, and a sample within it. -/
def limitedRun : List Op :=
  [.adminCreateObs (ascii "o"),
   .adminSetBufferMaxCount (ascii "o") 2,
   .adminSetHighLimit (ascii "o") (double 10),
   .adminPush (ascii "/obs/o") (double 3) (.numeric (double 7))]

/-- The Observation has no transform and its buffer is not empty. -/
def Hub.buffersSomething (h : Hub) (r : ResRef) : Bool :=
  (h.observation r).any fun o => decide (o.transformType = .none) && !o.samples.isEmpty

theorem accepted_only_limitedRun : ∃ h, Reachable smallPlatform h ∧
    h.buffersSomething 0 = true ∧
    AcceptedOnly smallPlatform (keepsFiltered smallPlatform · = true) h := by
  have hrun : smallRunEnds limitedRun (fun h =>
      h.buffersSomething 0 && h.log.all (keepsFiltered smallPlatform)) = true := by
    decide +kernel
  obtain ⟨h, hr, hp⟩ := exists_of_smallRunEnds hrun
  rw [Bool.and_eq_true] at hp
  exact ⟨h, hr, hp.1, accepted_only hr (List.all_eq_true.mp hp.2)⟩

/-- The same with a sample above the limit. -/
def exceededRun : List Op :=
  [.adminCreateObs (ascii "o"),
   .adminSetBufferMaxCount (ascii "o") 2,
   .adminSetHighLimit (ascii "o") (double 10),
   .adminPush (ascii "/obs/o") (double 3) (.numeric (double 12))]

/-- Whatever is pushed, the filters reject. -/
def rejectsAll (P : Platform) : Event → Bool
  | .pushing _ ctx before t u s => filtersReject P ctx before t { s with via := u }
  | .restoring _ _ _ => false
  | _ => true

theorem not_provenance (hall : h.log.all (rejectsAll P) = true) : ¬ Provenance P h r s := by
  rintro (⟨ctx, before, t, t', u, s₀, o, o', hlog, ho, hshown, haccept⟩ |
    ⟨env, content, o, evs, newest, hlog, hrestore, hs⟩)
  · have hreject := List.all_eq_true.mp hall _ hlog
    simp [rejectsAll, filtersReject, ho, hshown, haccept] at hreject
  · exact absurd (List.all_eq_true.mp hall _ hlog) (by simp [rejectsAll])

theorem accepted_only_fails : ∃ h, Reachable smallPlatform h ∧
    ¬ AcceptedOnly smallPlatform (fun _ => True) h := by
  have hrun : smallRunEnds exceededRun (fun h =>
      h.buffersSomething 0 && h.log.all (rejectsAll smallPlatform)) = true := by
    decide +kernel
  obtain ⟨h, hr, hp⟩ := exists_of_smallRunEnds hrun
  rw [Bool.and_eq_true] at hp
  refine ⟨h, hr, fun hlaw => ?_⟩
  obtain ⟨o, ho, hsome⟩ := (Option.any_eq_true _ _).mp hp.1
  obtain ⟨x, hx, hc⟩ := observation_eq_some ho
  simp only [Bool.and_eq_true, decide_eq_true_eq, Bool.not_eq_true', List.isEmpty_eq_false_iff]
    at hsome
  obtain ⟨s, hs⟩ := List.exists_mem_of_ne_nil _ hsome.2
  exact not_provenance hp.2 (hlaw.buffered 0 x o hx hc hsome.1 s hs)

end MangOH.DataHub
