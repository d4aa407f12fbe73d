import MangOH.DataHub.ObsSteps

/-! What `res_Push` can do to one resource, said once: the filters of an Observation, then
suspension, override, units and coercion. -/
namespace MangOH.DataHub

open Outcome

variable {P : Platform} {ctx : ObsContext} {env : Environment} {o : Observation} {x : Resource}
  {s : DataSample} {t : DataType} {et : EntryType} {u : CString} {B : Fault → Prop}

/-! ### Filters and transforms read samples at their own types -/

theorem sat_getBufferedNumber {e : BufferEntry} (h : e.sampleRef.type = t) :
    Sat B (getBufferedNumber e t) fun _ => True := by
  cases t with
  | numeric => exact sat_getNumeric h
  | boolean => exact (sat_getBoolean h).bind fun _ _ => trivial
  | trigger => exact trivial
  | string => exact trivial
  | json => exact trivial

theorem mem_findBufferEntry {startTime : Double} {e : BufferEntry}
    (h : e ∈ findBufferEntry P env o startTime) : e ∈ o.sampleList := by
  unfold findBufferEntry at h
  split at h
  · exact h
  · exact (List.dropWhile_sublist _).subset h

theorem mem_samples {e : BufferEntry} (h : e ∈ o.sampleList) : e.sampleRef ∈ o.samples :=
  List.mem_map_of_mem h

theorem sat_mapM_getBufferedNumber {l : List BufferEntry} (h : ∀ e ∈ l, e.sampleRef.type = t) :
    Sat B (l.mapM (getBufferedNumber · t)) fun _ => True := by
  induction l with
  | nil => exact trivial
  | cons e l ih =>
    rw [List.mapM_cons]
    refine (sat_getBufferedNumber (h e (by simp))).bind fun _ _ => ?_
    exact (ih fun e he => h e (by simp [he])).bind fun _ _ => trivial

theorem sat_bufferedNumbers (h : ∀ s ∈ o.samples, s.type = o.bufferedType) (startTime : Double) :
    Sat B (bufferedNumbers P env o startTime) fun _ => True := by
  unfold bufferedNumbers
  split
  · exact trivial
  · refine (sat_mapM_getBufferedNumber fun e he => ?_).bind fun _ _ => trivial
    exact h _ (mem_samples (mem_findBufferEntry he))

theorem sat_updateSample (hs : s.type = t) (result : Double) :
    Sat B (updateSample env s t result) fun s' => s'.type = t ∧ s'.via = s.via := by
  cases t with
  | boolean =>
    refine (sat_getBoolean hs).bind fun old _ => ?_
    simp only [sat_pure]
    split
    · exact ⟨hs, rfl⟩
    · exact ⟨rfl, rfl⟩
  | numeric =>
    refine (sat_getNumeric hs).bind fun old _ => ?_
    simp only [sat_pure]
    split
    · exact ⟨hs, rfl⟩
    · exact ⟨rfl, rfl⟩
  | trigger => exact ⟨hs, rfl⟩
  | string => exact ⟨hs, rfl⟩
  | json => exact ⟨hs, rfl⟩

theorem sat_applyTransform (h : ∀ s ∈ o.samples, s.type = o.bufferedType) (hs : s.type = t) :
    Sat B (obsApplyTransform P env o t s) fun s' => s'.type = t ∧ s'.via = s.via := by
  have hupdate : ∀ result, Sat B (updateSample env s t result)
      fun s' => s'.type = t ∧ s'.via = s.via := fun result => sat_updateSample hs result
  have hnumbers : Sat B (bufferedNumbers P env o .nan) fun _ => True := sat_bufferedNumbers h .nan
  unfold obsApplyTransform
  split
  · exact ⟨hs, rfl⟩
  all_goals
    refine Sat.bind (Q := fun _ => True) ?_ fun result _ => hupdate result
    exact hnumbers.bind fun _ _ => trivial

theorem sat_doJsonExtraction (hB : B .fatal → P.Fits) (hs : s.type = t) :
    Sat B (obsDoJsonExtraction P env o t s) fun r =>
      ∀ t' s', r = some (t', s') → s'.type = t' ∧ s'.via = s.via := by
  unfold obsDoJsonExtraction
  split
  · rintro t' s' h
    cases h
    exact ⟨hs, rfl⟩
  · split
    · simp
    · next hne =>
      have ht : t = .json := by simpa using hne
      refine (sat_extractJson hB (hs.trans ht) _).bind fun extracted he => ?_
      simp only [sat_pure, Option.map_eq_some_iff, Prod.mk.injEq]
      rintro t' s' ⟨⟨t₁, s₁⟩, hex, rfl, rfl⟩
      exact ⟨he t₁ s₁ hex, rfl⟩

theorem sat_changedEnough {previous : DataSample} (hs : s.type = t) (hp : previous.type = t) :
    Sat B (changedEnough P o t s previous) fun _ => True := by
  cases t with
  | trigger => exact trivial
  | boolean => exact (sat_getBoolean hs).bind fun _ _ => (sat_getBoolean hp).bind fun _ _ => trivial
  | numeric => exact (sat_getNumeric hp).bind fun _ _ => (sat_getNumeric hs).bind fun _ _ => trivial
  | string =>
    exact (sat_getText hs (.inl rfl)).bind fun _ _ =>
      (sat_getText hp (.inl rfl)).bind fun _ _ => trivial
  | json =>
    exact (sat_getText hs (.inr rfl)).bind fun _ _ =>
      (sat_getText hp (.inr rfl)).bind fun _ _ => trivial

theorem sat_changePasses {previous : DataSample} {overridden : Bool} (hs : s.type = t)
    (hp : previous.type = ctx.currentType) :
    Sat B (obsShouldAccept.changePasses P ctx o overridden t s previous) fun _ => True := by
  unfold obsShouldAccept.changePasses
  split
  · exact trivial
  · split
    · exact trivial
    · split
      · next ht => exact sat_changedEnough hs (hp.trans ht.symm)
      · exact trivial

theorem sat_shouldAccept {currentValue : Option DataSample} {overridden : Bool} (hs : s.type = t)
    (hc : ∀ v, currentValue = some v → v.type = ctx.currentType) :
    Sat B (obsShouldAccept P ctx o currentValue overridden t s) fun r =>
      ∀ o', r = some o' → o' = { o with lastPushTime := getRelativeTimeMs ctx.env } := by
  unfold obsShouldAccept
  have hlimits : Sat B (obsShouldAccept.limitsPass o t s) fun _ => True := by
    unfold obsShouldAccept.limitsPass
    split
    · next ht => exact (sat_getNumeric (hs.trans ht)).bind fun _ _ => trivial
    · exact trivial
  refine hlimits.bind fun inLimits _ => ?_
  split
  · simp
  · split
    · simp [eq_comm]
    · next previous =>
      refine (sat_changePasses hs (hc previous rfl)).bind fun changed _ => ?_
      split
      · simp
      · split
        · simp
        · simp [eq_comm]

/-! ### The resource classes that belong to an entry type -/

/-- The class of a resource is the one its entry's type promises. -/
def ClassOk : EntryType → ResourceClass → Prop
  | .placeholder, .placeholder => True
  | .input, .ioPoint _ _ => True
  | .output, .ioPoint _ _ => True
  | .observation, .observation _ => True
  | _, _ => False

/-- `IsAcceptable`, for a resource of the right class. -/
def Resource.acceptable (x : Resource) (t : DataType) : Bool :=
  match x.cls with
  | .ioPoint fixed _ => decide (t = fixed)
  | _ => true

/-- `res_IsOverridden`, for a resource of the right class. -/
def Resource.overridden (x : Resource) : Bool :=
  x.overrideValue.isSome && x.acceptable x.overrideType

/-- `UpdateCurrentValue`, as far as the resource itself is concerned. -/
def Resource.accept (x : Resource) (t : DataType) (s : DataSample) : Resource :=
  if x.acceptable t then x.install t s else x

theorem isAcceptable_eq (h : ClassOk et x.cls) (t : DataType) :
    isAcceptable et x t = .ok (x.acceptable t) := by
  unfold isAcceptable ioPointGetDataType Resource.acceptable
  cases et <;> cases hc : x.cls <;> simp_all [ClassOk, EntryType.isIo] <;> rfl

theorem resIsOverridden_eq (h : ClassOk et x.cls) : resIsOverridden et x = .ok x.overridden := by
  unfold resIsOverridden Resource.overridden
  cases hv : x.overrideValue with
  | none => rfl
  | some v => simpa using isAcceptable_eq h x.overrideType

theorem isIo_of_ioPoint {fixed : DataType} {mandatory : Bool} (h : ClassOk et x.cls)
    (hx : x.cls = .ioPoint fixed mandatory) : et.isIo = true := by
  rw [hx] at h
  cases et <;> simp_all [ClassOk, EntryType.isIo]

theorem ioPoint_of_isIo (h : ClassOk et x.cls) (hio : et.isIo = true) :
    ∃ fixed mandatory, x.cls = .ioPoint fixed mandatory := by
  cases et <;> cases hc : x.cls <;> simp_all [ClassOk, EntryType.isIo]

theorem acceptable_ioPoint {fixed : DataType} {mandatory : Bool}
    (hx : x.cls = .ioPoint fixed mandatory) (t : DataType) :
    x.acceptable t = decide (t = fixed) := by
  simp [Resource.acceptable, hx]

theorem acceptable_of_not_io (h : ClassOk et x.cls) (hio : et.isIo = false) (t : DataType) :
    x.acceptable t = true := by
  unfold Resource.acceptable
  cases et <;> cases hc : x.cls <;> simp_all [ClassOk, EntryType.isIo]

/-! ### One push -/

/-- The samples of a resource are of the types it has recorded for them, and the administrator's
values carry no units. -/
structure Typed (x : Resource) : Prop where
  current : ∀ s, x.currentValue = some s → s.type = x.currentType
  pushed : ∀ s, x.pushedValue = some s → s.type = x.pushedType
  override : ∀ s, x.overrideValue = some s → s.type = x.overrideType ∧ s.via = []
  default : ∀ s, x.defaultValue = some s → s.type = x.defaultType ∧ s.via = []
  jsonExample : ∀ s, x.jsonExample = some s → s.type = .json
  fixed : ∀ t mandatory, x.cls = .ioPoint t mandatory → x.currentType = t
  buffer : ∀ o, x.cls = .observation o → o.BufferOk

/-- An Observation takes steps; resources of other classes stay what they are. -/
inductive ClassRun (P : Platform) : ResourceClass → List ObsEvent → ResourceClass → Prop
  | refl (cls : ResourceClass) : ClassRun P cls [] cls
  | run {o o' : Observation} {evs : List ObsEvent} (h : ObsRun P o evs o')
      (hreads : o'.readOpList = o.readOpList) :
      ClassRun P (.observation o) evs (.observation o')

/-- The pushed value is recorded, whatever becomes of it. -/
def Resource.record (x : Resource) (cls : ResourceClass) (t : DataType) (s : DataSample) :
    Resource :=
  { x with cls, pushedValue := some s, pushedType := t }

/-- The units rule of Inputs and Outputs. -/
def Resource.refusesUnits (x : Resource) (u : CString) : Prop :=
  u ≠ [] ∧ x.units ≠ [] ∧ u ≠ x.units

/-- What can become of a sample that is pushed to a resource with some units. -/
inductive PushOutcome (P : Platform) (et : EntryType) (x : Resource) (u : CString) : Pushed → Prop
  /-- an Observation ignores the sample -/
  | filtered {cls : ResourceClass} {evs : List ObsEvent} (hc : ClassRun P x.cls evs cls) :
      PushOutcome P et x u ⟨{ x with cls }, evs, none⟩
  | suspended {cls : ResourceClass} {evs : List ObsEvent} (hc : ClassRun P x.cls evs cls)
      (t : DataType) (s : DataSample) (hs : s.type = t) (hv : s.via = u)
      (hsusp : x.isConfigChanging = true) :
      PushOutcome P et x u ⟨x.record cls t s, evs, none⟩
  | overridden {cls : ResourceClass} {evs : List ObsEvent} (hc : ClassRun P x.cls evs cls)
      (t : DataType) (s : DataSample) (hs : s.type = t) (hv : s.via = u)
      (hsusp : x.isConfigChanging = false) (ho : x.overridden = true) (value : DataSample)
      (hvalue : x.overrideValue = some value) :
      PushOutcome P et x u ⟨x.record cls t s, evs,
        some (x.overrideType, dataSampleSetTimestamp value s.timestamp)⟩
  | mismatched (t : DataType) (s : DataSample) (hs : s.type = t) (hv : s.via = u)
      (hsusp : x.isConfigChanging = false) (ho : x.overridden = false) (hio : et.isIo = true)
      (hu : x.refusesUnits u) :
      PushOutcome P et x u ⟨x.record x.cls t s, [], none⟩
  | coerced (t : DataType) (s : DataSample) (hs : s.type = t) (hv : s.via = u)
      (hsusp : x.isConfigChanging = false) (ho : x.overridden = false) (hio : et.isIo = true)
      (hu : ¬ x.refusesUnits u) (fixed : DataType) (mandatory : Bool)
      (hfixed : x.cls = .ioPoint fixed mandatory) (coerced : DataSample)
      (hct : coerced.type = fixed) (hcv : coerced.via = u) :
      PushOutcome P et x u ⟨x.record x.cls t s, [], some (fixed, coerced)⟩
  | taken {cls : ResourceClass} {evs : List ObsEvent} (hc : ClassRun P x.cls evs cls)
      (t : DataType) (s : DataSample) (hs : s.type = t) (hv : s.via = u)
      (hsusp : x.isConfigChanging = false) (ho : x.overridden = false) (hio : et.isIo = false)
      (units : CString) :
      PushOutcome P et x u ⟨{ x.record cls t s with units }, evs, some (t, s)⟩

theorem ClassRun.classOk {cls cls' : ResourceClass} {evs : List ObsEvent}
    (h : ClassRun P cls evs cls') (hx : ClassOk et cls) : ClassOk et cls' := by
  cases h with
  | refl => exact hx
  | run h => cases et <;> simp_all [ClassOk]

theorem ClassRun.acceptable {cls : ResourceClass} {evs : List ObsEvent}
    (h : ClassRun P x.cls evs cls) (t : DataType) :
    Resource.acceptable { x with cls } t = x.acceptable t := by
  unfold Resource.acceptable
  generalize x.cls = c at h
  cases h <;> rfl

/-- What `admission` hands on. -/
structure Admitted (P : Platform) (x : Resource) (u : CString) (p : Pushed) : Prop where
  run : ∃ cls, p.res = { x with cls } ∧ ClassRun P x.cls p.events cls
  sample : ∀ t s, p.sample = some (t, s) → s.type = t ∧ s.via = u

theorem sat_obsAdmit (hB : B .fatal → P.Fits) (hx : Typed x) (ho : x.cls = .observation o)
    (hctx : ctx.currentType = x.currentType) (hs : s.type = t) :
    Sat B (obsAdmit P ctx x o t s) (Admitted P x s.via) := by
  unfold obsAdmit
  refine (sat_doJsonExtraction hB hs).bind fun extracted he => ?_
  cases extracted with
  | none => exact ⟨⟨x.cls, rfl, .refl _⟩, by simp⟩
  | some e =>
    obtain ⟨ht, hv⟩ := he e.1 e.2 rfl
    have hstep : Sat B (obsProcessAccepted P ctx o e.1 e.2) fun r =>
        r.1.BufferOk ∧ r.1.readOpList = o.readOpList ∧ ObsStep P o r.2 r.1 := by
      refine (Sat.and_result (sat_processAccepted (hx.buffer o ho) ht)).mono ?_
      rintro r ⟨hb, hr⟩
      exact ⟨hb.1, hb.2.2.2.1.readOpList, .process ctx e.1 e.2 ht hr⟩
    refine hstep.bind ?_
    rintro ⟨o₁, evs⟩ ⟨hb, hreads, hstep⟩
    have hrun : ObsRun P o ([] ++ evs) o₁ := .step (.refl o) hstep
    refine (sat_applyTransform hb.typed ht).bind fun s₁ hs₁ => ?_
    refine (sat_shouldAccept hs₁.1 ?_).bind fun r hr => ?_
    · intro v hcur
      rw [hctx]
      exact hx.current v hcur
    · cases r with
      | none => exact ⟨⟨_, rfl, ho ▸ .run hrun hreads⟩, by simp⟩
      | some o₂ =>
        have haccept := ObsStep.accept (P := P) o₁ (getRelativeTimeMs ctx.env)
        have hreads₂ : o₂.readOpList = o.readOpList := by
          rw [hr o₂ rfl]
          exact hreads
        rw [← hr o₂ rfl] at haccept
        have hrun₂ := ObsRun.step hrun haccept
        rw [List.append_nil] at hrun₂
        refine ⟨⟨_, rfl, ho ▸ .run hrun₂ hreads₂⟩, ?_⟩
        rintro t' s' h
        cases h
        exact ⟨hs₁.1, hs₁.2.trans hv⟩

theorem sat_admission (hB : B .fatal → P.Fits) (hx : Typed x) (hcls : ClassOk et x.cls)
    (hctx : ctx.currentType = x.currentType) (hs : s.type = t) :
    Sat B (admission P ctx et x t s) (Admitted P x s.via) := by
  unfold admission
  split
  · cases ho : x.cls with
    | observation o => exact sat_obsAdmit hB hx ho hctx hs
    | placeholder => simp [ho, ClassOk] at hcls
    | ioPoint => simp [ho, ClassOk] at hcls
  · refine ⟨⟨x.cls, rfl, .refl _⟩, ?_⟩
    rintro t' s' h
    cases h
    exact ⟨hs, rfl⟩

theorem sat_applyOverride (hcls : ClassOk et x.cls)
    (hov : ∀ v, x.overrideValue = some v → v.type = x.overrideType) :
    Sat B (applyOverride et x t u s) fun r =>
      (x.overridden = true ∧ ∃ v, x.overrideValue = some v ∧
        r = (x.overrideType, [], dataSampleSetTimestamp v s.timestamp)) ∨
      x.overridden = false ∧ r = (t, u, s) := by
  unfold applyOverride
  rw [resIsOverridden_eq hcls]
  cases ho : x.overridden with
  | true =>
    cases hv : x.overrideValue with
    | none => simp [Resource.overridden, hv] at ho
    | some v =>
      have hcopy : Sat B (dataSampleCopy x.overrideType v) (· = v) := by
        rw [dataSampleCopy, if_pos (hov v hv)]
        rfl
      refine hcopy.bind ?_
      rintro _ rfl
      exact .inl ⟨rfl, _, rfl, rfl⟩
  | false => exact .inr ⟨rfl, rfl⟩

theorem sat_conform (hB : B .fatal → P.Fits) (hcls : ClassOk et x.cls) (hs : s.type = t) :
    Sat B (conform P env et x t u s) fun r =>
      (et.isIo = true ∧ x.refusesUnits u ∧ r = (x, none)) ∨
      (et.isIo = true ∧ ¬ x.refusesUnits u ∧ ∃ fixed mandatory coerced,
        x.cls = .ioPoint fixed mandatory ∧ coerced.type = fixed ∧ coerced.via = s.via ∧
        (t = fixed → coerced = s) ∧ r = (x, some (fixed, coerced))) ∨
      et.isIo = false ∧ r = (if u = [] then x else setUnits P x u, some (t, s)) := by
  have hio : et.isIo = true → Sat B
      (if u ≠ [] ∧ x.units ≠ [] ∧ u ≠ x.units then pure (x, none)
        else do
          let fixed ← ioPointGetDataType x
          let coerced ← doTypeCoercion P env fixed t s
          pure (x, some (fixed, coerced))) fun r =>
      (x.refusesUnits u ∧ r = (x, none)) ∨
      (¬ x.refusesUnits u ∧ ∃ fixed mandatory coerced,
        x.cls = .ioPoint fixed mandatory ∧ coerced.type = fixed ∧ coerced.via = s.via ∧
        (t = fixed → coerced = s) ∧ r = (x, some (fixed, coerced))) := by
    intro hio
    obtain ⟨fixed, mandatory, hx⟩ := ioPoint_of_isIo hcls hio
    have hfixed : ioPointGetDataType x = .ok fixed := by simp [ioPointGetDataType, hx]
    split
    · next hu => exact .inl ⟨hu, rfl⟩
    · next hu =>
      rw [hfixed]
      refine (Sat.and_result (sat_doTypeCoercion hB hs)).bind ?_
      rintro coerced ⟨⟨hct, hcv⟩, hc⟩
      refine .inr ⟨hu, fixed, mandatory, coerced, hx, hct, hcv, ?_, rfl⟩
      intro ht
      rw [doTypeCoercion, if_pos ht] at hc
      cases hc
      rfl
  unfold conform
  cases et with
  | nameSpace => simp [ClassOk] at hcls
  | input | output =>
    refine (hio rfl).mono ?_
    rintro r (⟨hu, hr⟩ | h)
    · exact .inl ⟨rfl, hu, hr⟩
    · exact .inr (.inl ⟨rfl, h⟩)
  | observation | placeholder => exact .inr (.inr ⟨rfl, rfl⟩)

theorem overridden_record {cls : ResourceClass} {evs : List ObsEvent}
    (h : ClassRun P x.cls evs cls) (t : DataType) (s : DataSample) :
    (x.record cls t s).overridden = x.overridden := by
  have hacc : (x.record cls t s).acceptable x.overrideType = x.acceptable x.overrideType :=
    h.acceptable x.overrideType
  show ((x.record cls t s).overrideValue.isSome && (x.record cls t s).acceptable x.overrideType) = _
  rw [hacc]
  rfl

theorem ClassRun.of_io {cls : ResourceClass} {evs : List ObsEvent}
    (h : ClassRun P x.cls evs cls) (hcls : ClassOk et x.cls) (hio : et.isIo = true) :
    cls = x.cls ∧ evs = [] := by
  obtain ⟨fixed, mandatory, hx⟩ := ioPoint_of_isIo hcls hio
  rw [hx] at h ⊢
  cases h
  exact ⟨rfl, rfl⟩

/-- What follows once the pushed value is recorded. -/
theorem sat_afterRecord (hB : B .fatal → P.Fits) {cls : ResourceClass} {evs : List ObsEvent}
    (hx : Typed x)
    (hcls : ClassOk et x.cls) (hrun : ClassRun P x.cls evs cls) (hs : s.type = t)
    (hv : s.via = u) (hsusp : x.isConfigChanging = false) :
    Sat B (do
      let (t', u', s') ← applyOverride et (x.record cls t s) t u s
      let conformed ← conform P env et (x.record cls t s) t' u' s'
      pure ⟨conformed.1, evs, conformed.2⟩) (PushOutcome P et x u) := by
  have hcls' : ClassOk et (x.record cls t s).cls := hrun.classOk hcls
  have hov := overridden_record hrun t s
  refine (sat_applyOverride hcls' fun v hval => (hx.override v hval).1).bind ?_
  rintro r (⟨ho, v, hval, rfl⟩ | ⟨ho, rfl⟩)
  · have hvt : (dataSampleSetTimestamp v s.timestamp).type = x.overrideType :=
      (hx.override v hval).1
    refine (sat_conform hB hcls' hvt).bind ?_
    rintro r (⟨_, hu, _⟩ | ⟨hio, _, fixed, mandatory, coerced, hfixed, _, _, hco, rfl⟩ | ⟨_, rfl⟩)
    · exact absurd rfl hu.1
    · have hacc : x.overrideType = fixed := by
        have ho' := ho
        simp only [Resource.overridden, Bool.and_eq_true] at ho'
        rw [acceptable_ioPoint hfixed] at ho'
        exact of_decide_eq_true ho'.2
      rw [hco hacc, ← hacc]
      exact .overridden hrun t s hs hv hsusp (hov ▸ ho) v hval
    · exact .overridden hrun t s hs hv hsusp (hov ▸ ho) v hval
  · refine (sat_conform hB hcls' hs).bind ?_
    rintro r (⟨hio, hu, rfl⟩ | ⟨hio, hu, fixed, mandatory, coerced, hfixed, hct, hcv, _, rfl⟩ |
      ⟨hio, rfl⟩)
    · obtain ⟨rfl, rfl⟩ := hrun.of_io hcls hio
      exact .mismatched t s hs hv hsusp (hov ▸ ho) hio hu
    · obtain ⟨rfl, rfl⟩ := hrun.of_io hcls hio
      exact .coerced t s hs hv hsusp (hov ▸ ho) hio hu fixed mandatory hfixed coerced hct
        (hcv.trans hv)
    · have htaken := PushOutcome.taken (u := u) hrun t s hs hv hsusp (hov ▸ ho) hio
      dsimp only [sat_pure]
      split
      · exact htaken x.units
      · exact htaken _

/-- The first half of `res_Push`, said once. -/
theorem sat_resPushLocal (hB : B .fatal → P.Fits) (hx : Typed x) (hcls : ClassOk et x.cls)
    (hctx : ctx.currentType = x.currentType) (hs : s.type = t) :
    Sat B (resPushLocal P ctx et x t u s) (PushOutcome P et x u) := by
  unfold resPushLocal
  refine (sat_admission (s := { s with via := u }) hB hx hcls hctx hs).bind ?_
  rintro ⟨res, evs, sample⟩ ⟨⟨cls, hres, hrun⟩, hsample⟩
  dsimp only at hres hrun hsample
  subst hres
  cases sample with
  | none => exact .filtered hrun
  | some p =>
    obtain ⟨t', s'⟩ := p
    obtain ⟨hs', hv'⟩ := hsample t' s' rfl
    dsimp only
    split
    · next hsusp => exact .suspended hrun t' { s' with hops := s'.hops + 1 } hs' hv' hsusp
    · next hsusp =>
      exact sat_afterRecord (s := { s' with hops := s'.hops + 1 }) hB hx hcls hrun hs' hv'
        (by simpa using hsusp)

end MangOH.DataHub
