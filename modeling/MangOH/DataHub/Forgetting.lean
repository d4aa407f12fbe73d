import MangOH.DataHub.Statistics
import MangOH.DataHub.RoundTrip
import MangOH.Lib.TwoRuns

/-! Two histories of an Observation, one call of `obs_SetTransform`, and what the same pushes do
afterwards. -/
namespace MangOH.DataHub

open Outcome TwoRuns BoundedQueue

variable {P : Platform} {env : Environment} {ctx ctx₁ ctx₂ : ObsContext} {t : DataType}
  {u : CString} {s s₁ s₂ : DataSample} {x x₁ x₂ y₁ y₂ : Resource} {o o₁ o₂ o₁' o₂' : Observation}
  {h h' h₁ h₂ h₁' h₂' : Hub} {r r₁ r₂ : ResRef}

/-- A push that arrives at some time. -/
structure Arrival where
  env : Environment
  dataType : DataType
  units : CString
  sample : DataSample

/-- What a push leads to: the buffer, the pushed value, and what `UpdateCurrentValue` hands on to
which destinations. -/
structure Reaction where
  buffered : List (Double × Value)
  pushed : Option (Double × Value)
  forwarded : Option (DataType × CString × (Double × Value) × List ResRef)

def Resource.buffer (x : Resource) : List DataSample :=
  match x.cls with
  | .observation o => o.samples
  | _ => []

/-- A push to an Observation with some path, and the Observation afterwards. -/
def pushAt (P : Platform) (obsPath : Option CString) (x : Resource) (a : Arrival) :
    Except Fault (Resource × Reaction) := do
  let p ← resPushLocal P ⟨a.env, obsPath, x.currentType⟩ .observation x a.dataType a.units a.sample
  let x :=
    match p.sample with
    | none => p.res
    | some (t, s) => p.res.install t s
  pure (x, {
    buffered := x.buffer.map DataSample.reading
    pushed := x.pushedValue.map DataSample.reading
    forwarded := p.sample.map fun (t, s) => (t, x.units, s.reading, x.destList) })

/-- What a sequence of pushes leads to. -/
def reactions (P : Platform) (obsPath : Option CString) :
    Resource → List Arrival → Except Fault (List Reaction)
  | _, [] => pure []
  | x, a :: rest => do
    let (x, reaction) ← pushAt P obsPath x a
    let others ← reactions P obsPath x rest
    pure (reaction :: others)

/-- The same settings for filters, extraction and the buffer's size. -/
structure SameFilters (o₁ o₂ : Observation) : Prop where
  highLimit : o₂.highLimit = o₁.highLimit
  lowLimit : o₂.lowLimit = o₁.lowLimit
  changeBy : o₂.changeBy = o₁.changeBy
  minPeriod : o₂.minPeriod = o₁.minPeriod
  jsonExtraction : o₂.jsonExtraction = o₁.jsonExtraction
  maxCount : o₂.maxCount = o₁.maxCount

/-- The values of the overrides and the units are the same. -/
structure SameGuise (x₁ x₂ : Resource) : Prop where
  override : x₂.overrideValue.map (·.value) = x₁.overrideValue.map (·.value)
  units : x₂.units = x₁.units

/-- What a filter for changes looks at; under an override it does not look at the value. -/
def compared (overridden : Bool) (s : DataSample) : Value :=
  if overridden then .trigger else s.value

/-- As far as filters are set that look at the current value or at the time of the last accepted
push, these are the same. -/
structure SameMemory (x₁ x₂ : Resource) (o₁ o₂ : Observation) : Prop where
  change : o₁.changeBy.isSet = true → x₂.currentValue.map (compared x₁.overrideValue.isSome) =
    x₁.currentValue.map (compared x₁.overrideValue.isSome)
  present : o₁.minPeriod.isSet = true → x₂.currentValue.isSome = x₁.currentValue.isSome
  period : o₁.minPeriod.isSet = true → x₁.currentValue.isSome = true →
    o₂.lastPushTime = o₁.lastPushTime

/-- Two Observations that differ at most in what they remember. -/
structure Twins (x₁ x₂ : Resource) (o₁ o₂ : Observation) : Prop extends SameGuise x₁ x₂ where
  cls₁ : x₁.cls = .observation o₁
  cls₂ : x₂.cls = .observation o₂
  bufferOk₁ : o₁.BufferOk
  bufferOk₂ : o₂.BufferOk
  override₁ : ∀ v, x₁.overrideValue = some v → v.type = x₁.overrideType
  override₂ : ∀ v, x₂.overrideValue = some v → v.type = x₂.overrideType
  filters : SameFilters o₁ o₂
  transformType : o₂.transformType = o₁.transformType
  samples : o₂.samples = o₁.samples
  bufferedType : o₁.samples ≠ [] → o₂.bufferedType = o₁.bufferedType
  destList : x₂.destList = x₁.destList
  isConfigChanging : x₂.isConfigChanging = x₁.isConfigChanging
  pushedValue : x₂.pushedValue = x₁.pushedValue

/-- The current values have the types that go with them. -/
structure CurrentTyped (x₁ x₂ : Resource) : Prop where
  current₁ : ∀ s, x₁.currentValue = some s → s.type = x₁.currentType
  current₂ : ∀ s, x₂.currentValue = some s → s.type = x₂.currentType

/-! ### The filters -/

theorem changedEnough_congr (hchange : o₂.changeBy = o₁.changeBy) (hvalue : s₂.value = s₁.value) :
    changedEnough P o₂ t s s₂ = changedEnough P o₁ t s s₁ := by
  obtain ⟨_, v, _, _⟩ := s₁
  obtain ⟨_, v', _, _⟩ := s₂
  obtain rfl : v' = v := hvalue
  unfold changedEnough
  rw [hchange]
  cases t <;> cases v' <;> rfl

/-- The verdict, and what it does to the Observation. -/
def SameVerdict (now : Nat) (o₁ o₂ : Observation) (v₁ v₂ : Option Observation) : Prop :=
  v₁ = none ∧ v₂ = none ∨
    v₁ = some { o₁ with lastPushTime := now } ∧ v₂ = some { o₂ with lastPushTime := now }

theorem limitsPass_congr (hf : SameFilters o₁ o₂) :
    obsShouldAccept.limitsPass o₂ t s = obsShouldAccept.limitsPass o₁ t s := by
  unfold obsShouldAccept.limitsPass withinLimits
  rw [hf.highLimit, hf.lowLimit]

theorem changePasses_congr {overridden : Bool} (hf : SameFilters o₁ o₂)
    (htype : o₁.changeBy.isSet = true → overridden = false → ctx₂.currentType = ctx₁.currentType)
    (hvalue : o₁.changeBy.isSet = true → overridden = false → s₂.value = s₁.value) :
    obsShouldAccept.changePasses P ctx₂ o₂ overridden t s s₂ =
      obsShouldAccept.changePasses P ctx₁ o₁ overridden t s s₁ := by
  unfold obsShouldAccept.changePasses
  rw [hf.changeBy]
  cases hset : o₁.changeBy.isSet with
  | false => rfl
  | true =>
    cases overridden with
    | true => rfl
    | false => rw [htype hset rfl, changedEnough_congr hf.changeBy (hvalue hset rfl)]

/-- If a filter that looks back is set, both or none have a current value. -/
theorem SameMemory.isSome_eq (hm : SameMemory x₁ x₂ o₁ o₂)
    (hset : o₁.changeBy.isSet = true ∨ o₁.minPeriod.isSet = true) :
    x₂.currentValue.isSome = x₁.currentValue.isSome := by
  rcases hset with hset | hset
  · have := congrArg Option.isSome (hm.change hset)
    simpa using this
  · exact hm.present hset

/-- The check of the minimum period. -/
theorem tooEarly_congr (hf : SameFilters o₁ o₂) (hm : SameMemory x₁ x₂ o₁ o₂)
    (hcurrent : x₁.currentValue.isSome = true) (now : Nat) :
    (o₂.minPeriod.isSet && (P.ofNat ((now + 2 ^ 32 - o₂.lastPushTime) % 2 ^ 32)).lt
        (P.mul o₂.minPeriod .thousand)) =
      (o₁.minPeriod.isSet && (P.ofNat ((now + 2 ^ 32 - o₁.lastPushTime) % 2 ^ 32)).lt
        (P.mul o₁.minPeriod .thousand)) := by
  rw [hf.minPeriod]
  cases hset : o₁.minPeriod.isSet with
  | false => rw [Bool.false_and, Bool.false_and]
  | true => rw [hm.period hset hcurrent]

/-- Observations that remember the same come to the same verdict. -/
theorem shouldAccept_alike (hf : SameFilters o₁ o₂) (hm : SameMemory x₁ x₂ o₁ o₂)
    (hc : CurrentTyped x₁ x₂) (henv : ctx₂.env = ctx₁.env)
    (htype₁ : ctx₁.currentType = x₁.currentType)
    (htype₂ : ctx₂.currentType = x₂.currentType) :
    Alike (SameVerdict (getRelativeTimeMs ctx₁.env) o₁ o₂)
      (obsShouldAccept P ctx₁ o₁ x₁.currentValue x₁.overrideValue.isSome t s)
      (obsShouldAccept P ctx₂ o₂ x₂.currentValue x₁.overrideValue.isSome t s) := by
  have hlimits := limitsPass_congr (t := t) (s := s) hf
  have hsame : Alike Eq (obsShouldAccept.limitsPass o₁ t s) (obsShouldAccept.limitsPass o₂ t s) :=
    alike_eq.mpr hlimits.symm
  by_cases hset : o₁.changeBy.isSet = true ∨ o₁.minPeriod.isSet = true
  · have hsome := hm.isSome_eq hset
    unfold obsShouldAccept
    rw [henv]
    refine hsame.bind ?_
    rintro inLimits _ rfl
    cases inLimits with
    | false => exact .inl ⟨rfl, rfl⟩
    | true =>
      cases hcur₁ : x₁.currentValue with
      | none =>
        obtain hcur₂ : x₂.currentValue = none := by simpa [hcur₁] using hsome
        rw [hcur₂]
        exact .inr ⟨rfl, rfl⟩
      | some s₁ =>
        obtain ⟨s₂, hcur₂⟩ : ∃ s₂, x₂.currentValue = some s₂ := by
          simpa [hcur₁, Option.isSome_iff_exists] using hsome
        have hvalue : o₁.changeBy.isSet = true → x₁.overrideValue.isSome = false →
            s₂.value = s₁.value := by
          intro hset hover
          have := hm.change hset
          simpa [hcur₁, hcur₂, compared, hover] using this
        have htype : o₁.changeBy.isSet = true → x₁.overrideValue.isSome = false →
            ctx₂.currentType = ctx₁.currentType := by
          intro hset hover
          rw [htype₁, htype₂, ← hc.current₁ s₁ hcur₁, ← hc.current₂ s₂ hcur₂, DataSample.type,
            hvalue hset hover, DataSample.type]
        have hpasses : obsShouldAccept.changePasses P ctx₂ o₂ x₁.overrideValue.isSome t s s₂ =
            obsShouldAccept.changePasses P ctx₁ o₁ x₁.overrideValue.isSome t s s₁ :=
          changePasses_congr hf htype hvalue
        have hearly := tooEarly_congr (P := P) hf hm (by rw [hcur₁]; rfl)
          (getRelativeTimeMs ctx₁.env)
        rw [hcur₂]
        simp only [Bool.not_true, Bool.false_eq_true, if_false]
        refine (alike_eq.mpr hpasses.symm).bind ?_
        rintro changed _ rfl
        cases changed with
        | false => exact .inl ⟨rfl, rfl⟩
        | true =>
          simp only [Bool.not_true, Bool.false_eq_true, if_false, hearly]
          split
          · exact .inl ⟨rfl, rfl⟩
          · exact .inr ⟨rfl, rfl⟩
  · simp only [not_or, Bool.not_eq_true] at hset
    rw [shouldAccept_unset hset.1 hset.2,
      shouldAccept_unset (hf.changeBy ▸ hset.1) (hf.minPeriod ▸ hset.2), henv]
    refine hsame.bind ?_
    rintro inLimits _ rfl
    cases inLimits with
    | false => exact .inl ⟨rfl, rfl⟩
    | true => exact .inr ⟨rfl, rfl⟩

/-! ### One push -/

theorem SameFilters.processed (hf : SameFilters o₁ o₂) (h₁ : SameSettings o₁ o₁')
    (h₂ : SameSettings o₂ o₂') : SameFilters o₁' o₂' :=
  ⟨h₂.highLimit.trans (hf.highLimit.trans h₁.highLimit.symm),
    h₂.lowLimit.trans (hf.lowLimit.trans h₁.lowLimit.symm),
    h₂.changeBy.trans (hf.changeBy.trans h₁.changeBy.symm),
    h₂.minPeriod.trans (hf.minPeriod.trans h₁.minPeriod.symm),
    h₂.jsonExtraction.trans (hf.jsonExtraction.trans h₁.jsonExtraction.symm),
    h₂.maxCount.trans (hf.maxCount.trans h₁.maxCount.symm)⟩

theorem SameMemory.processed (hm : SameMemory x₁ x₂ o₁ o₂) (h₁ : SameSettings o₁ o₁')
    (hlast₁ : o₁'.lastPushTime = o₁.lastPushTime) (hlast₂ : o₂'.lastPushTime = o₂.lastPushTime) :
    SameMemory x₁ x₂ o₁' o₂' := by
  refine ⟨?_, ?_, ?_⟩
  · rw [h₁.changeBy]
    exact hm.change
  · rw [h₁.minPeriod]
    exact hm.present
  · rw [h₁.minPeriod, hlast₁, hlast₂]
    exact hm.period

/-- Both Observations buffer the same, and have then a buffer of the same type if anything is in
it. -/
theorem Twins.processAccepted (h : Twins x₁ x₂ o₁ o₂) (hs : s.type = t) :
    Alike (fun r₁ r₂ => Twins { x₁ with cls := .observation r₁.1 }
      { x₂ with cls := .observation r₂.1 }
        r₁.1 r₂.1 ∧ SameSettings o₁ r₁.1 ∧ r₁.1.lastPushTime = o₁.lastPushTime ∧
        r₂.1.lastPushTime = o₂.lastPushTime)
      (obsProcessAccepted P ctx₁ o₁ t s) (obsProcessAccepted P ctx₂ o₂ t s) := by
  refine (Alike.of_sat (sat_processAccepted h.bufferOk₁ hs)
    (sat_processAccepted h.bufferOk₂ hs)).mono ?_
  rintro ⟨o₁', evs₁⟩ ⟨o₂', evs₂⟩ ⟨⟨hb₁, hsamples₁, htype₁, hset₁, hlast₁⟩,
    hb₂, hsamples₂, htype₂, hset₂, hlast₂⟩
  dsimp only at *
  have hmax := h.filters.maxCount
  have hkept : (if o₂.bufferedType = t then o₂.samples else []) =
      if o₁.bufferedType = t then o₁.samples else [] := by
    rw [h.samples]
    by_cases hempty : o₁.samples = []
    · rw [hempty, ite_self, ite_self]
    · rw [h.bufferedType hempty]
  have hsame : o₂'.samples = o₁'.samples := by
    rw [hsamples₁, hsamples₂, bufferAfter, bufferAfter, hkept, h.samples, hmax]
  refine ⟨{ h with
    cls₁ := rfl, cls₂ := rfl, bufferOk₁ := hb₁, bufferOk₂ := hb₂
    filters := h.filters.processed hset₁ hset₂
    transformType := hset₂.transformType.trans (h.transformType.trans hset₁.transformType.symm)
    samples := hsame
    bufferedType := fun hne => ?_ }, hset₁, hlast₁, hlast₂⟩
  have hpos : o₁.maxCount ≠ 0 := by
    intro hzero
    rw [hsamples₁, bufferAfter, if_pos hzero] at hne
    have hle := h.bufferOk₁.count_le
    rw [h.bufferOk₁.count_eq, ← length_samples, hzero] at hle
    exact hne (List.eq_nil_of_length_eq_zero (by omega))
  rw [htype₁, htype₂, if_neg hpos, if_neg (by omega)]

/-- The same transform gives the same. -/
theorem Twins.applyTransform (h : Twins x₁ x₂ o₁ o₂) :
    obsApplyTransform P env o₂ t s = obsApplyTransform P env o₁ t s := by
  rw [obsApplyTransform_eq h.bufferOk₁.typed, obsApplyTransform_eq h.bufferOk₂.typed,
    h.transformType, h.samples]

/-- What the first part of a push leaves: no sample, or the same one for both, accepted now. -/
def SameAdmission (now : Nat) (x₁ x₂ : Resource) (p₁ p₂ : Pushed) : Prop :=
  ∃ o₁ o₂, Twins p₁.res p₂.res o₁ o₂ ∧ SameMemory p₁.res p₂.res o₁ o₂ ∧ p₂.sample = p₁.sample ∧
    p₁.res.currentValue = x₁.currentValue ∧ p₂.res.currentValue = x₂.currentValue ∧
    p₁.res.currentType = x₁.currentType ∧ p₂.res.currentType = x₂.currentType ∧
    ∀ t s, p₁.sample = some (t, s) → s.type = t ∧ o₁.lastPushTime = now ∧ o₂.lastPushTime = now

theorem SameGuise.overridden (h : SameGuise x₁ x₂) :
    x₂.overrideValue.isSome = x₁.overrideValue.isSome := by
  simpa using congrArg Option.isSome h.override

theorem doJsonExtraction_congr (hf : SameFilters o₁ o₂) :
    obsDoJsonExtraction P env o₂ t s = obsDoJsonExtraction P env o₁ t s := by
  unfold obsDoJsonExtraction
  rw [hf.jsonExtraction]

/-- Both remember the time of the push that they have accepted. -/
theorem Twins.accepted (h : Twins x₁ x₂ o₁ o₂) (now : Nat) :
    Twins { x₁ with cls := .observation { o₁ with lastPushTime := now } }
      { x₂ with cls := .observation { o₂ with lastPushTime := now } }
      { o₁ with lastPushTime := now } { o₂ with lastPushTime := now } := by
  exact { h with
    cls₁ := rfl, cls₂ := rfl
    bufferOk₁ := h.bufferOk₁.congr rfl rfl rfl rfl
    bufferOk₂ := h.bufferOk₂.congr rfl rfl rfl rfl
    filters := ⟨h.filters.highLimit, h.filters.lowLimit, h.filters.changeBy, h.filters.minPeriod,
      h.filters.jsonExtraction, h.filters.maxCount⟩ }

theorem SameMemory.accepted (hm : SameMemory x₁ x₂ o₁ o₂) (now : Nat) :
    SameMemory x₁ x₂ { o₁ with lastPushTime := now } { o₂ with lastPushTime := now } :=
  ⟨hm.change, hm.present, fun _ _ => rfl⟩

/-- Extraction, buffering, transform and filters. -/
theorem obsAdmit_alike (h : Twins x₁ x₂ o₁ o₂) (hm : SameMemory x₁ x₂ o₁ o₂)
    (hc : CurrentTyped x₁ x₂) (hs : s.type = t) (henv : ctx₂.env = ctx₁.env)
    (htype₁ : ctx₁.currentType = x₁.currentType) (htype₂ : ctx₂.currentType = x₂.currentType) :
    Alike (SameAdmission (getRelativeTimeMs ctx₁.env) x₁ x₂)
      (obsAdmit P ctx₁ x₁ o₁ t s) (obsAdmit P ctx₂ x₂ o₂ t s) := by
  have hextract : Alike Eq (obsDoJsonExtraction P ctx₁.env o₁ t s)
      (obsDoJsonExtraction P ctx₂.env o₂ t s) := by
    rw [henv]
    exact alike_eq.mpr (doJsonExtraction_congr h.filters).symm
  have htyped : Returns (obsDoJsonExtraction P ctx₁.env o₁ t s) _ :=
    sat_doJsonExtraction False.elim hs
  unfold obsAdmit
  refine (hextract.and_left htyped).bind ?_
  rintro extracted _ ⟨rfl, htyped⟩
  cases extracted with
  | none =>
    refine ⟨o₁, o₂, h, hm, rfl, rfl, rfl, rfl, rfl, ?_⟩
    rintro _ _ ⟨⟩
  | some e =>
    obtain ⟨t', s'⟩ := e
    have hs' := (htyped t' s' rfl).1
    refine (h.processAccepted hs').bind ?_
    rintro ⟨o₁', evs₁⟩ ⟨o₂', evs₂⟩ ⟨htwins, hset₁, hlast₁, hlast₂⟩
    dsimp only at *
    have hm' := hm.processed hset₁ hlast₁ hlast₂
    have htransform : Alike Eq (obsApplyTransform P ctx₁.env o₁' t' s')
        (obsApplyTransform P ctx₂.env o₂' t' s') := by
      rw [henv]
      exact alike_eq.mpr htwins.applyTransform.symm
    refine (htransform.and_left (sat_applyTransform htwins.bufferOk₁.typed hs')).bind ?_
    rintro s₂ _ ⟨rfl, hs₂, _⟩
    rw [h.overridden]
    refine (shouldAccept_alike htwins.filters hm' hc henv htype₁ htype₂).bind ?_
    rintro v₁ v₂ (⟨rfl, rfl⟩ | ⟨rfl, rfl⟩)
    · refine ⟨o₁', o₂', htwins, ⟨hm'.change, hm'.present, hm'.period⟩, rfl, rfl, rfl, rfl, rfl, ?_⟩
      rintro _ _ ⟨⟩
    · have hmem := hm'.accepted (getRelativeTimeMs ctx₁.env)
      refine ⟨_, _, htwins.accepted (getRelativeTimeMs ctx₁.env),
        ⟨hmem.change, hmem.present, hmem.period⟩, rfl, rfl, rfl, rfl, rfl, ?_⟩
      · rintro _ _ ⟨⟩
        exact ⟨hs₂, rfl, rfl⟩

/-- An override with the same value takes the place of a sample, or none does. -/
def SameSample (r₁ r₂ : DataType × CString × DataSample) : Prop :=
  r₂.1 = r₁.1 ∧ r₂.2.1 = r₁.2.1 ∧ r₂.2.2.reading = r₁.2.2.reading ∧ r₁.2.2.type = r₁.1 ∧
    r₂.2.2.type = r₂.1

theorem resIsOverridden_observation (x : Resource) :
    resIsOverridden .observation x = .ok x.overrideValue.isSome := by
  unfold resIsOverridden
  cases x.overrideValue <;> rfl

theorem applyOverride_none (h : x.overrideValue = none) :
    applyOverride .observation x t u s = .ok (t, u, s) := by
  unfold applyOverride
  rw [resIsOverridden_observation, h]
  rfl

theorem applyOverride_some {v : DataSample} (h : x.overrideValue = some v)
    (hv : v.type = x.overrideType) : applyOverride .observation x t u s =
      .ok (x.overrideType, [], dataSampleSetTimestamp v s.timestamp) := by
  unfold applyOverride
  rw [resIsOverridden_observation, h]
  show (dataSampleCopy x.overrideType v >>= _) = _
  rw [dataSampleCopy, if_pos hv]
  rfl

theorem Twins.applyOverride (h : Twins x₁ x₂ o₁ o₂) (hs : s.type = t) :
    Alike SameSample (DataHub.applyOverride .observation x₁ t u s)
      (DataHub.applyOverride .observation x₂ t u s) := by
  have hover := h.override
  cases h₁ : x₁.overrideValue with
  | none =>
    obtain h₂ : x₂.overrideValue = none := by simpa [h₁] using hover
    rw [applyOverride_none h₁, applyOverride_none h₂]
    exact ⟨rfl, rfl, rfl, hs, hs⟩
  | some v₁ =>
    obtain ⟨v₂, h₂, hvalue⟩ : ∃ v₂, x₂.overrideValue = some v₂ ∧ v₂.value = v₁.value := by
      simpa [h₁] using hover
    have hv₁ := h.override₁ v₁ h₁
    have hv₂ := h.override₂ v₂ h₂
    rw [applyOverride_some h₁ hv₁, applyOverride_some h₂ hv₂]
    refine ⟨?_, rfl, ?_, hv₁, hv₂⟩
    · rw [← hv₁, ← hv₂, DataSample.type, DataSample.type, hvalue]
    · exact Prod.ext rfl hvalue

theorem Twins.setUnits (h : Twins x₁ x₂ o₁ o₂) (u : CString) :
    Twins (if u = [] then x₁ else DataHub.setUnits P x₁ u)
      (if u = [] then x₂ else DataHub.setUnits P x₂ u) o₁ o₂ := by
  split
  · exact h
  · exact { h with units := rfl }

/-- What is left of a push when the current values are to be updated. -/
def SamePushed (p₁ p₂ : Pushed) : Prop :=
  ∃ o₁ o₂, Twins p₁.res p₂.res o₁ o₂ ∧
    (p₁.sample = none ∧ p₂.sample = none ∧ SameMemory p₁.res p₂.res o₁ o₂ ∧
      CurrentTyped p₁.res p₂.res ∨
    ∃ t s₁ s₂, p₁.sample = some (t, s₁) ∧ p₂.sample = some (t, s₂) ∧ s₂.reading = s₁.reading ∧
      s₁.type = t ∧ s₂.type = t ∧ o₂.lastPushTime = o₁.lastPushTime)

theorem resPushLocal_alike (h : Twins x₁ x₂ o₁ o₂) (hm : SameMemory x₁ x₂ o₁ o₂)
    (hc : CurrentTyped x₁ x₂) (hs : s.type = t) (henv : ctx₂.env = ctx₁.env)
    (htype₁ : ctx₁.currentType = x₁.currentType) (htype₂ : ctx₂.currentType = x₂.currentType) :
    Alike SamePushed (resPushLocal P ctx₁ .observation x₁ t u s)
      (resPushLocal P ctx₂ .observation x₂ t u s) := by
  have hadmits := obsAdmit_alike (P := P) (s := { s with via := u }) h hm hc hs henv htype₁ htype₂
  unfold resPushLocal
  simp only [admission, h.cls₁, h.cls₂]
  refine hadmits.bind ?_
  rintro ⟨y₁, evs₁, _⟩ ⟨y₂, evs₂, sample⟩ ⟨o₁', o₂', htwins, hmem, hsample, hcurrent⟩
  dsimp only at *
  subst hsample
  obtain ⟨hcur₁, hcur₂, hct₁, hct₂, hnow⟩ := hcurrent
  have hc' : CurrentTyped y₁ y₂ :=
    ⟨by rw [hcur₁, hct₁]; exact hc.current₁, by rw [hcur₂, hct₂]; exact hc.current₂⟩
  cases sample with
  | none => exact ⟨o₁', o₂', htwins, .inl ⟨rfl, rfl, hmem, hc'⟩⟩
  | some e =>
    obtain ⟨t', s'⟩ := e
    obtain ⟨hs', hlast₁, hlast₂⟩ := hnow t' s' rfl
    dsimp only
    have htwins' : Twins { y₁ with
      pushedValue := some { s' with hops := s'.hops + 1 }, pushedType := t' }
        { y₂ with pushedValue := some { s' with hops := s'.hops + 1 }, pushedType := t' } o₁' o₂' :=
      { htwins with pushedValue := rfl }
    by_cases hsuspended : y₁.isConfigChanging = true
    · rw [if_pos hsuspended, if_pos (htwins.isConfigChanging.trans hsuspended)]
      refine ⟨o₁', o₂', htwins', .inl ⟨rfl, rfl, ?_, ?_⟩⟩
      · exact ⟨hmem.change, hmem.present, hmem.period⟩
      · exact ⟨hc'.current₁, hc'.current₂⟩
    · rw [if_neg hsuspended, if_neg (htwins.isConfigChanging ▸ hsuspended)]
      refine (htwins'.applyOverride (s := { s' with hops := s'.hops + 1 }) hs').bind ?_
      rintro ⟨t₁, u₁, s₁⟩ ⟨t₂, u₂, s₂⟩ ⟨ht, hu, hreading, hs₁, hs₂⟩
      dsimp only at *
      subst ht hu
      exact ⟨o₁', o₂', htwins'.setUnits _,
        .inr ⟨_, s₁, s₂, rfl, rfl, hreading, hs₁, hs₂, hlast₂.trans hlast₁.symm⟩⟩

/-! ### Sequences of pushes -/

theorem Twins.install (h : Twins x₁ x₂ o₁ o₂) (t : DataType) (s₁ s₂ : DataSample) :
    Twins (x₁.install t s₁) (x₂.install t s₂) o₁ o₂ :=
  { h with }

theorem Twins.buffer (h : Twins x₁ x₂ o₁ o₂) : x₂.buffer = x₁.buffer := by
  rw [Resource.buffer, Resource.buffer, h.cls₁, h.cls₂]
  exact h.samples

theorem sameMemory_install (hreading : s₂.reading = s₁.reading)
    (hlast : o₂.lastPushTime = o₁.lastPushTime) :
    SameMemory (x₁.install t s₁) (x₂.install t s₂) o₁ o₂ := by
  have hvalue : s₂.value = s₁.value := congrArg Prod.snd hreading
  refine ⟨fun _ => ?_, fun _ => rfl, fun _ _ => hlast⟩
  simp [Resource.install, compared, hvalue]

theorem pushAt_alike {path₁ path₂ : Option CString} (h : Twins x₁ x₂ o₁ o₂)
    (hm : SameMemory x₁ x₂ o₁ o₂) (hc : CurrentTyped x₁ x₂) {a : Arrival}
    (ha : a.sample.type = a.dataType) :
    Alike (fun r₁ r₂ => r₁.2 = r₂.2 ∧ ∃ o₁ o₂, Twins r₁.1 r₂.1 o₁ o₂ ∧
        SameMemory r₁.1 r₂.1 o₁ o₂ ∧ CurrentTyped r₁.1 r₂.1)
      (pushAt P path₁ x₁ a) (pushAt P path₂ x₂ a) := by
  unfold pushAt
  have hlocal : Alike SamePushed
      (resPushLocal P ⟨a.env, path₁, x₁.currentType⟩ .observation x₁ a.dataType a.units a.sample)
      (resPushLocal P ⟨a.env, path₂, x₂.currentType⟩ .observation x₂ a.dataType a.units a.sample) :=
    resPushLocal_alike h hm hc ha rfl rfl rfl
  refine hlocal.bind ?_
  rintro ⟨y₁, evs₁, sample₁⟩ ⟨y₂, evs₂, sample₂⟩ ⟨o₁', o₂', htwins, hsample⟩
  dsimp only at *
  rcases hsample with ⟨rfl, rfl, hmem, hc'⟩ | ⟨t, s₁, s₂, rfl, rfl, hreading, hs₁, hs₂, hlast⟩
  · refine ⟨?_, o₁', o₂', htwins, hmem, hc'⟩
    simp [htwins.buffer, htwins.pushedValue]
  · have hinstall := htwins.install t s₁ s₂
    refine ⟨?_, o₁', o₂', hinstall, sameMemory_install hreading hlast, ?_, ?_⟩
    · simp [hinstall.buffer, hinstall.pushedValue, hinstall.units, hinstall.destList, hreading]
    · rintro _ ⟨⟩
      exact hs₁
    · rintro _ ⟨⟩
      exact hs₂

theorem reactions_congr {path₁ path₂ : Option CString} (arrivals : List Arrival)
    (ha : ∀ a ∈ arrivals, a.sample.type = a.dataType) (h : Twins x₁ x₂ o₁ o₂)
    (hm : SameMemory x₁ x₂ o₁ o₂) (hc : CurrentTyped x₁ x₂) :
    reactions P path₁ x₁ arrivals = reactions P path₂ x₂ arrivals := by
  rw [← alike_eq]
  induction arrivals generalizing x₁ x₂ o₁ o₂ with
  | nil => exact rfl
  | cons a rest ih =>
    unfold reactions
    refine (pushAt_alike h hm hc (ha a List.mem_cons_self)).bind ?_
    rintro ⟨y₁, reaction⟩ ⟨y₂, _⟩ ⟨hsame, o₁', o₂', h', hm', hc'⟩
    dsimp only at *
    subst hsame
    refine (ih (fun a ha' => ha a (List.mem_cons_of_mem _ ha')) h' hm' hc').bind ?_
    rintro others _ rfl
    exact rfl

/-! ### The call that forgets -/

/-- The buffer's size after `obs_SetTransform`. -/
def roomFor (ty : TransformType) (maxCount : Nat) : Nat :=
  if ty ≠ .none ∧ maxCount = 0 then 1 else maxCount

/-- All that `res_SetTransform` does to the Observation. -/
theorem resSetTransform_result {ty : TransformType} (hx : h.resources r = some x)
    (ho : x.cls = .observation o) (hb : o.BufferOk) (hset : resSetTransform h r ty = .ok h') :
    ∃ refCount, h'.resources r = some { x with
      cls := .observation { o with sampleList := [], count := 0, refCount
                                   maxCount := roomFor ty o.maxCount, transformType := ty }
      pushedValue := none
      isConfigChanging := h.isUpdateInProgress || x.isConfigChanging } := by
  have hcount : ({ o with transformType := ty, maxCount := roomFor ty o.maxCount } :
      Observation).count = o.sampleList.length := hb.count_eq
  obtain ⟨⟨o', evs⟩, htruncate, refCount, ho'⟩ :=
    (sat_truncateBuffer (B := fun _ => True) hcount 0).exists_ok
  dsimp only at ho'
  have hobs : obsSetTransform o ty = .ok (o', evs) := htruncate
  have hcleared : modifyObs h r (fun _ o => obsSetTransform o ty) = .ok
      ((h.emitObs r evs).setResource r { x with cls := .observation o' }) := by
    unfold modifyObs
    simp only [getResource_ok.mpr hx, ok_bind, ho, hobs]
    rfl
  unfold resSetTransform at hset
  rw [hcleared, ok_bind, modifyResource_ok.mpr ⟨_, Function.update_self .., rfl⟩, ok_bind] at hset
  unfold flagConfigChange at hset
  rw [modifyResource_ok.mpr ⟨_, Function.update_self .., rfl⟩] at hset
  cases hset
  refine ⟨refCount, (Function.update_self ..).trans (congrArg some ?_)⟩
  rw [ho']
  show (if h.isUpdateInProgress = true then _ else _) = _
  cases h.isUpdateInProgress with
  | true => simp [BoundedQueue.keepLast]
  | false => simp [BoundedQueue.keepLast]

/-- What the call leaves: an empty buffer, and the same settings. -/
theorem twins_setTransform {refCount₁ refCount₂ : Nat → Nat} (ty : TransformType) (u₁ u₂ : Bool)
    (hb₁ : o₁.BufferOk) (hb₂ : o₂.BufferOk) (ht₁ : Typed x₁) (ht₂ : Typed x₂)
    (hfilters : SameFilters o₁ o₂) (hdests : x₂.destList = x₁.destList) (hguise : SameGuise x₁ x₂)
    (hsuspended : (u₂ || x₂.isConfigChanging) = (u₁ || x₁.isConfigChanging)) :
    let o₁' : Observation := { o₁ with
      sampleList := [], count := 0, refCount := refCount₁
      maxCount := roomFor ty o₁.maxCount, transformType := ty }
    let o₂' : Observation := { o₂ with
      sampleList := [], count := 0, refCount := refCount₂
      maxCount := roomFor ty o₂.maxCount, transformType := ty }
    Twins { x₁ with cls := .observation o₁', pushedValue := none
                    isConfigChanging := u₁ || x₁.isConfigChanging }
      { x₂ with cls := .observation o₂', pushedValue := none
                isConfigChanging := u₂ || x₂.isConfigChanging } o₁' o₂' := by
  have hroom : ∀ {o : Observation}, o.BufferOk → roomFor ty o.maxCount < 2 ^ 32 := by
    intro o hb
    unfold roomFor
    split
    · omega
    · exact hb.maxCount_lt
  exact {
    cls₁ := rfl, cls₂ := rfl
    bufferOk₁ := bufferOk_emptied (hroom hb₁) refCount₁ ty
    bufferOk₂ := bufferOk_emptied (hroom hb₂) refCount₂ ty
    override := hguise.override, units := hguise.units
    override₁ := fun v hv => (ht₁.override v hv).1
    override₂ := fun v hv => (ht₂.override v hv).1
    filters := ⟨hfilters.highLimit, hfilters.lowLimit, hfilters.changeBy, hfilters.minPeriod,
      hfilters.jsonExtraction, congrArg (roomFor ty) hfilters.maxCount⟩
    transformType := rfl, samples := rfl
    bufferedType := fun hne => absurd rfl hne
    destList := hdests, isConfigChanging := hsuspended, pushedValue := rfl }

/-- After `res_SetTransform` two Observations with the same settings react alike to all pushes, if
their overrides, units and suspension are the same, and so is what their filters remember. -/
theorem setTransform_forgets (P : Platform) {h₁ h₂ h₁' h₂' : Hub} {r₁ r₂ : ResRef}
    {x₁ x₂ y₁ y₂ : Resource} {o₁ o₂ : Observation} (hr₁ : Reachable P h₁) (hr₂ : Reachable P h₂)
    (hx₁ : h₁.resources r₁ = some x₁) (hx₂ : h₂.resources r₂ = some x₂)
    (ho₁ : x₁.cls = .observation o₁) (ho₂ : x₂.cls = .observation o₂)
    (hfilters : SameFilters o₁ o₂) (hdests : x₂.destList = x₁.destList)
    (hguise : SameGuise x₁ x₂) (hmem : SameMemory x₁ x₂ o₁ o₂)
    (hsuspended : (h₂.isUpdateInProgress || x₂.isConfigChanging) =
      (h₁.isUpdateInProgress || x₁.isConfigChanging)) (ty : TransformType)
    (hset₁ : resSetTransform h₁ r₁ ty = .ok h₁') (hset₂ : resSetTransform h₂ r₂ ty = .ok h₂')
    (hy₁ : h₁'.resources r₁ = some y₁) (hy₂ : h₂'.resources r₂ = some y₂)
    (path₁ path₂ : Option CString) (arrivals : List Arrival)
    (ha : ∀ a ∈ arrivals, a.sample.type = a.dataType) :
    reactions P path₁ y₁ arrivals = reactions P path₂ y₂ arrivals := by
  obtain ⟨e₁, he₁, _⟩ := (reachable_wellFormed hr₁).entryOf r₁ x₁ hx₁
  obtain ⟨e₂, he₂, _⟩ := (reachable_wellFormed hr₂).entryOf r₂ x₂ hx₂
  have ht₁ : Typed x₁ := (reachable_wellFormed hr₁).typed r₁ x₁ e₁ hx₁ he₁
  have ht₂ : Typed x₂ := (reachable_wellFormed hr₂).typed r₂ x₂ e₂ hx₂ he₂
  have hb₁ := ht₁.buffer o₁ ho₁
  have hb₂ := ht₂.buffer o₂ ho₂
  obtain ⟨refCount₁, hres₁⟩ := resSetTransform_result hx₁ ho₁ hb₁ hset₁
  obtain ⟨refCount₂, hres₂⟩ := resSetTransform_result hx₂ ho₂ hb₂ hset₂
  cases hy₁.symm.trans hres₁
  cases hy₂.symm.trans hres₂
  refine reactions_congr arrivals ha (twins_setTransform ty h₁.isUpdateInProgress
    h₂.isUpdateInProgress hb₁ hb₂ ht₁ ht₂ hfilters hdests hguise hsuspended) ?_ ?_
  · exact ⟨hmem.change, hmem.present, hmem.period⟩
  · exact ⟨ht₁.current, ht₂.current⟩

/-- An Observation with a filter for changes, to which 20 has been pushed or not. -/
def changeRun (change : Double) (pushed : Bool) : List Op :=
  [.adminCreateObs (ascii "o"), .adminSetChangeBy (ascii "o") change] ++
    if pushed then [.adminPush (ascii "/obs/o") (double 3) (.numeric (double 20))] else []

/-- The state before and after the call of `res_SetTransform` that follows. -/
def transformed (change : Double) (pushed : Bool) : Except Fault (Hub × Hub) := do
  let h ← smallRun (changeRun change pushed)
  let h' ← resSetTransform h 0 .mean
  pure (h, h')

/-- The Observation is as new but for the filter for changes. -/
def isPlain (change : Double) (hubs : Hub × Hub) : Bool :=
  !hubs.1.isUpdateInProgress && (hubs.1.resources 0).any fun x =>
    (hubs.1.observation 0).any fun o =>
    decide (o.highLimit = .nan) && decide (o.lowLimit = .nan) && decide (o.changeBy = change) &&
      decide (o.minPeriod = .nan) && decide (o.jsonExtraction = []) && decide (o.maxCount = 0) &&
      x.destList.isEmpty && x.overrideValue.isNone && decide (x.units = []) && !x.isConfigChanging

/-- What `isPlain` tells of the state before the call. -/
structure Plain (change : Double) (h h' : Hub) (x y : Resource) (o : Observation) : Prop where
  reachable : Reachable smallPlatform h
  resource : h.resources 0 = some x
  cls : x.cls = .observation o
  set : resSetTransform h 0 .mean = .ok h'
  after : h'.resources 0 = some y
  filters : o.highLimit = .nan ∧ o.lowLimit = .nan ∧ o.changeBy = change ∧ o.minPeriod = .nan ∧
    o.jsonExtraction = [] ∧ o.maxCount = 0
  routes : x.destList = []
  guise : x.overrideValue = none ∧ x.units = []
  suspended : (h.isUpdateInProgress || x.isConfigChanging) = false

theorem plain_of_test {change : Double} {pushed : Bool} {test : Hub × Hub → Bool}
    (htest : passes (transformed change pushed)
      (fun hubs => isPlain change hubs && test hubs) = true) :
    ∃ h h' x y o, Plain change h h' x y o ∧ test (h, h') = true := by
  obtain ⟨⟨h, h'⟩, hrun, htest⟩ := passes_iff.mp htest
  obtain ⟨h₀, hrun₀, hrun⟩ := bind_eq_ok.mp hrun
  obtain ⟨h₁, hset, hrun⟩ := bind_eq_ok.mp hrun
  cases hrun
  obtain ⟨hplain, htest⟩ := Bool.and_eq_true_iff.mp htest
  simp only [isPlain, Bool.and_eq_true, Bool.not_eq_true', Option.any_eq_true, decide_eq_true_eq,
    List.isEmpty_iff, Option.isNone_iff_eq_none] at hplain
  obtain ⟨hupdating, x, hx, o, ho,
    ⟨⟨⟨⟨⟨⟨⟨⟨⟨hhigh, hlow⟩, hchange⟩, hperiod⟩, hjson⟩, hmax⟩, hdests⟩,
    hover⟩, hunits⟩, hsuspended⟩⟩ := hplain
  obtain ⟨x', hx', hcls⟩ := observation_eq_some ho
  cases hx.symm.trans hx'
  have hr : Reachable smallPlatform h := reachable_run _ (.boot _ _) hrun₀
  have hb := bufferOk_of_resource (reachable_wellFormed hr) hx hcls
  obtain ⟨_, hy⟩ := resSetTransform_result hx hcls hb hset
  exact ⟨h, h', x, _, o, ⟨hr, hx, hcls, hset, hy,
    ⟨hhigh, hlow, hchange, hperiod, hjson, hmax⟩, hdests,
    ⟨hover, hunits⟩, by rw [hupdating, hsuspended]; rfl⟩, htest⟩

theorem Plain.sameFilters {change : Double} (p₁ : Plain change h₁ h₁' x₁ y₁ o₁)
    (p₂ : Plain change h₂ h₂' x₂ y₂ o₂) : SameFilters o₁ o₂ := by
  obtain ⟨a, b, c, d, e, f⟩ := p₁.filters
  obtain ⟨a', b', c', d', e', f'⟩ := p₂.filters
  constructor <;> simp only [a, b, c, d, e, f, a', b', c', d', e', f']

/-- A push of 25 two seconds later. -/
def laterPush : Arrival :=
  ⟨{ smallEnvironment with relSec := 52 }, .numeric, [], ⟨double 5, .numeric (double 25), [], 0⟩⟩

theorem setTransform_forgets_plain : ∃ h₁ h₁' x₁ y₁ o₁ h₂ h₂' x₂ y₂ o₂,
    Plain .nan h₁ h₁' x₁ y₁ o₁ ∧ Plain .nan h₂ h₂' x₂ y₂ o₂ ∧ x₁.currentValue.isSome = true ∧
    x₂.currentValue = none ∧
    reactions smallPlatform none y₁ [laterPush] = reactions smallPlatform none y₂ [laterPush] := by
  have htest₁ : passes (transformed .nan true) (fun hubs => isPlain .nan hubs &&
      (hubs.1.resources 0).any fun x => x.currentValue.isSome) = true := by decide +kernel
  have htest₂ : passes (transformed .nan false) (fun hubs => isPlain .nan hubs &&
      (hubs.1.resources 0).any fun x => x.currentValue.isNone) = true := by decide +kernel
  obtain ⟨h₁, h₁', x₁, y₁, o₁, p₁, hcurrent₁⟩ := plain_of_test htest₁
  obtain ⟨h₂, h₂', x₂, y₂, o₂, p₂, hcurrent₂⟩ := plain_of_test htest₂
  simp only [p₁.resource, Option.any_some] at hcurrent₁
  simp only [p₂.resource, Option.any_some, Option.isNone_iff_eq_none] at hcurrent₂
  refine ⟨h₁, h₁', x₁, y₁, o₁, h₂, h₂', x₂, y₂, o₂, p₁, p₂, hcurrent₁, hcurrent₂, ?_⟩
  have hunset : (Double.isSet .nan) = false := by decide
  refine setTransform_forgets smallPlatform p₁.reachable p₂.reachable p₁.resource p₂.resource p₁.cls
    p₂.cls (p₁.sameFilters p₂) (p₂.routes.trans p₁.routes.symm) ⟨?_, ?_⟩ ⟨?_, ?_, ?_⟩
    (p₂.suspended.trans p₁.suspended.symm) .mean p₁.set p₂.set p₁.after p₂.after none none _ ?_
  · rw [p₁.guise.1, p₂.guise.1]
  · rw [p₁.guise.2, p₂.guise.2]
  · rw [p₁.filters.2.2.1, hunset]
    rintro ⟨⟩
  · rw [p₁.filters.2.2.2.1, hunset]
    rintro ⟨⟩
  · rw [p₁.filters.2.2.2.1, hunset]
    rintro ⟨⟩
  · intro a ha
    cases List.mem_singleton.mp ha
    rfl

/-- The push of 25 is forwarded. -/
def forwards (hubs : Hub × Hub) : Bool :=
  (hubs.2.resources 0).any fun y => passes (reactions smallPlatform none y [laterPush])
    fun reactions => reactions.any fun reaction => reaction.forwarded.isSome

/-- The call has not forgotten the current value 20, from which 25 does not differ by 10. -/
theorem setTransform_forgets_fails : ∃ h₁ h₁' x₁ y₁ o₁ h₂ h₂' x₂ y₂ o₂,
    Plain (double 10) h₁ h₁' x₁ y₁ o₁ ∧ Plain (double 10) h₂ h₂' x₂ y₂ o₂ ∧
    reactions smallPlatform none y₁ [laterPush] ≠ reactions smallPlatform none y₂ [laterPush] := by
  have htest₁ : passes (transformed (double 10) true)
      (fun hubs => isPlain (double 10) hubs && !forwards hubs) = true := by decide +kernel
  have htest₂ : passes (transformed (double 10) false)
      (fun hubs => isPlain (double 10) hubs && forwards hubs) = true := by decide +kernel
  obtain ⟨h₁, h₁', x₁, y₁, o₁, p₁, hforwards₁⟩ := plain_of_test htest₁
  obtain ⟨h₂, h₂', x₂, y₂, o₂, p₂, hforwards₂⟩ := plain_of_test htest₂
  refine ⟨h₁, h₁', x₁, y₁, o₁, h₂, h₂', x₂, y₂, o₂, p₁, p₂, fun hsame => ?_⟩
  simp only [forwards, p₁.after, p₂.after, Option.any_some, hsame, Bool.not_eq_true']
    at hforwards₁ hforwards₂
  rw [hforwards₁] at hforwards₂
  cases hforwards₂

end MangOH.DataHub
