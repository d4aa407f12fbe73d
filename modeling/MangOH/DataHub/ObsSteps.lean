import MangOH.DataHub.Buffer

/-! Everything that can happen to one Observation, as a step relation, and the invariant of its
sample buffer over all of its runs. -/
namespace MangOH.DataHub

open Outcome BoundedQueue Codec

variable {P : Platform} {ctx : ObsContext} {o o' : Observation} {s : DataSample} {t : DataType}
  {B : Fault → Prop} {evs : List ObsEvent}

/-- One call of a function of `obs.c` on an existing Observation. -/
inductive ObsStep (P : Platform) : Observation → List ObsEvent → Observation → Prop
  | process (ctx : ObsContext) {o o' : Observation} {evs : List ObsEvent} (t : DataType)
      (s : DataSample) (hs : s.type = t) (h : obsProcessAccepted P ctx o t s = .ok (o', evs)) :
      ObsStep P o evs o'
  | accept (o : Observation) (now : Nat) : ObsStep P o [] { o with lastPushTime := now }
  | settings (o : Observation) (highLimit lowLimit changeBy minPeriod : Double)
      (jsonExtraction : CString) :
      ObsStep P o [] { o with highLimit, lowLimit, changeBy, minPeriod, jsonExtraction }
  | transform {o o' : Observation} {evs : List ObsEvent} (transformType : TransformType)
      (h : obsSetTransform o transformType = .ok (o', evs)) : ObsStep P o evs o'
  | maxCount (ctx : ObsContext) {o o' : Observation} {evs : List ObsEvent} (count : UInt32)
      (h : obsSetBufferMaxCount P ctx o count = .ok (o', evs)) : ObsStep P o evs o'
  | backupPeriod (ctx : ObsContext) {o o' : Observation} {evs : List ObsEvent} (seconds : UInt32)
      (h : obsSetBufferBackupPeriod P ctx o seconds = .ok (o', evs)) : ObsStep P o evs o'
  | backup (ctx : ObsContext) {o o' : Observation} {evs : List ObsEvent}
      (h : backup P ctx o = .ok (o', evs)) : ObsStep P o evs o'
  | startRead (ctx : ObsContext) {o o' : Observation} {evs : List ObsEvent} (id : Nat)
      (hid : ∀ op ∈ o.readOpList, op.id ≠ id) (startAfter : Double) (script : List WriteResult)
      (h : obsReadBufferJson P ctx o id startAfter script = .ok (o', evs)) : ObsStep P o evs o'
  | fdEvent (dataType : DataType) {o o' : Observation} {evs : List ObsEvent} (id : Nat)
      (hangUp : Bool) (script : List WriteResult)
      (h : readOpFdEventHandler P dataType o id hangUp script = .ok (o', evs)) :
      ObsStep P o evs o'

/-- Any number of steps, with everything that happens in them. -/
inductive ObsRun (P : Platform) : Observation → List ObsEvent → Observation → Prop
  | refl (o : Observation) : ObsRun P o [] o
  | step {o o' o'' : Observation} {log evs : List ObsEvent} (hr : ObsRun P o log o')
      (hs : ObsStep P o' evs o'') : ObsRun P o (log ++ evs) o''

/-- The Observations there can be, each with all that has happened to it. A backup is only ever
restored into a new Observation. -/
inductive ObsReachable (P : Platform) : List ObsEvent → Observation → Prop
  | create : ObsReachable P [] obsCreate
  | restore (env : Environment) (content : Bytes) {o : Observation} {evs : List ObsEvent}
      {newest : Option DataSample}
      (h : obsRestoreContent env obsCreate content = .ok (o, evs, newest)) : ObsReachable P evs o
  | step {o o' : Observation} {log evs : List ObsEvent} (hr : ObsReachable P log o)
      (hs : ObsStep P o evs o') : ObsReachable P (log ++ evs) o'

theorem bufferOk_obsCreate : obsCreate.BufferOk := by
  refine ⟨⟨rfl, List.isChain_nil, ?_⟩, Nat.le_refl _, by decide⟩
  simp [Observation.samples, obsCreate]

theorem sat_setTransform (h : o.BufferOk) (ty : TransformType) :
    Sat B (obsSetTransform o ty) fun r => ∃ refCount maxCount,
      r.1 = { o with
        sampleList := [], count := 0, refCount, maxCount, transformType := ty } ∧
      maxCount < 2 ^ 32 := by
  have hc : ({ o with
      transformType := ty
      maxCount := if ty ≠ .none ∧ o.maxCount = 0 then 1 else o.maxCount } : Observation).count
        = o.sampleList.length := h.count_eq
  refine (sat_truncateBuffer hc 0).mono ?_
  rintro ⟨_, evs⟩ ⟨refCount, rfl⟩
  refine ⟨refCount, if ty ≠ .none ∧ o.maxCount = 0 then 1 else o.maxCount, by simp [keepLast], ?_⟩
  split
  · decide
  · exact h.maxCount_lt

theorem sat_setBufferMaxCount (h : o.BufferOk) (count : UInt32) :
    Sat B (obsSetBufferMaxCount P ctx o count) fun r =>
      r.1.BufferOk ∧ r.1.maxCount = count.toNat ∧ r.1.bufferedType = o.bufferedType ∧
      r.1.samples = keepLast count.toNat o.samples ∧ r.1.readOpList = o.readOpList ∧
      r.1.transformType = o.transformType ∧ r.1.lastPushTime = o.lastPushTime := by
  unfold obsSetBufferMaxCount
  split
  · next heq =>
    refine ⟨h, heq, rfl, ?_, rfl, rfl, rfl⟩
    rw [keepLast_of_length_le]
    have := h.count_le
    rw [length_samples, ← h.count_eq]
    omega
  · have hdis : ∃ backupTimer lastBackupTime, (if count.toNat = 0 ∧ 0 < o.backupPeriod then
        disableBackups P ctx o else (o, [])).1 = { o with backupTimer, lastBackupTime } := by
      split <;> exact ⟨_, _, rfl⟩
    obtain ⟨backupTimer, lastBackupTime, hdis⟩ := hdis
    generalize (if count.toNat = 0 ∧ 0 < o.backupPeriod then
        disableBackups P ctx o else (o, [])) = dis at hdis
    obtain ⟨_, disabled⟩ := dis
    subst hdis
    dsimp only
    have hcount : ({ o with backupTimer, lastBackupTime, maxCount := count.toNat } :
        Observation).count = o.sampleList.length := h.count_eq
    refine (sat_truncateBuffer hcount count.toNat).bind ?_
    rintro ⟨_, evs⟩ ⟨refCount, rfl⟩
    have hc := h.toBufferCore.keepLast count.toNat refCount
    exact ⟨⟨⟨hc.count_eq, hc.inOrder, hc.typed⟩, Nat.min_le_right _ _, count.toNat_lt⟩, rfl, rfl,
      samples_keepLast, rfl, rfl, rfl⟩

theorem sat_setBufferBackupPeriod (h : ∀ s ∈ o.samples, s.type = o.bufferedType)
    (seconds : UInt32) :
    Sat B (obsSetBufferBackupPeriod P ctx o seconds) fun r =>
      ∃ backupPeriod backupTimer lastBackupTime,
        r.1 = { o with backupPeriod, backupTimer, lastBackupTime } := by
  unfold obsSetBufferBackupPeriod
  split
  · exact ⟨_, _, _, rfl⟩
  · dsimp only
    split
    · exact ⟨_, _, _, rfl⟩
    · split
      · exact ⟨_, _, _, rfl⟩
      · split
        · exact ⟨_, _, _, rfl⟩
        · split
          · refine Sat.mono (Q := fun r => _) (sat_backup ?_) ?_
            · exact h
            · rintro ⟨_, evs⟩ rfl
              exact ⟨_, _, _, rfl⟩
          · exact ⟨_, _, _, rfl⟩

/-! ### Read operations only touch reference counts -/

theorem hold_frame (o : Observation) (position : Option BufferEntry) :
    ∃ refCount, o.hold position = { o with refCount } := by
  cases position <;> exact ⟨_, rfl⟩

theorem letGo_frame (o : Observation) (position : Option BufferEntry) :
    ∃ refCount, o.letGo position = { o with refCount } := by
  cases position <;> exact ⟨_, rfl⟩

theorem catchUp_frame (o : Observation) (e : BufferEntry) :
    ∃ refCount, (catchUp o e).1 = { o with refCount } := by
  unfold catchUp
  split
  · dsimp only
    split <;> exact ⟨_, rfl⟩
  · exact ⟨_, rfl⟩

theorem advance_frame (P : Platform) (o : Observation) (e : BufferEntry) :
    ∃ refCount, (advance P o e).1 = { o with refCount } := by
  unfold advance
  split <;> exact ⟨_, rfl⟩

theorem loadLoop_frame (dataType : DataType) (fuel : Nat) (o : Observation) (op : ReadOperation) :
    Returns (loadLoop P dataType fuel o op) fun l =>
      (∃ refCount, l.obs = { o with refCount }) ∧ l.op.id = op.id := by
  induction fuel generalizing o op with
  | zero => simp [loadLoop]
  | succ fuel ih =>
    unfold loadLoop
    split
    · exact ⟨⟨_, rfl⟩, rfl⟩
    · next parked _ =>
      have hc := catchUp_frame o parked
      generalize catchUp o parked = caught at hc
      obtain ⟨o₁, next⟩ := caught
      obtain ⟨rc, rfl⟩ := hc
      cases next with
      | none => exact ⟨⟨_, rfl⟩, rfl⟩
      | some e =>
        obtain ⟨rc₂, ha⟩ := advance_frame P { o with refCount := rc } e
        refine Sat.bind (Q := fun _ => True) (Returns.of_ok fun _ _ => trivial) fun text _ => ?_
        dsimp only
        rw [ha]
        cases text with
        | some text => exact ⟨⟨_, rfl⟩, rfl⟩
        | none =>
          refine (ih _ _).bind fun l hl => ?_
          obtain ⟨⟨rc₃, hl⟩, hid⟩ := hl
          exact ⟨⟨rc₃, hl⟩, hid⟩

theorem nextState_frame (dataType : DataType) (o : Observation) (op : ReadOperation) (n : Nat) :
    Returns (nextState P dataType o op n) fun c =>
      (∃ refCount, c.obs = { o with refCount }) ∧ ∀ op', c.op = some op' → op'.id = op.id := by
  unfold nextState
  dsimp only
  split
  · refine ⟨⟨_, rfl⟩, ?_⟩
    rintro _ ⟨⟩
    rfl
  · split
    · refine (loadLoop_frame _ _ _ _).bind fun l hl => ⟨hl.1, ?_⟩
      rintro _ ⟨⟩
      exact hl.2
    · refine ⟨⟨_, rfl⟩, ?_⟩
      rintro _ ⟨⟩
      rfl
  · refine ⟨⟨_, rfl⟩, ?_⟩
    rintro _ ⟨⟩
    rfl
  · exact ⟨letGo_frame o op.nextEntryPtr, by simp⟩

theorem continueReadOp_frame (dataType : DataType) (script : List WriteResult) (o : Observation)
    (op : ReadOperation) :
    Returns (continueReadOp P dataType script o op) fun c =>
      (∃ refCount, c.obs = { o with refCount }) ∧ ∀ op', c.op = some op' → op'.id = op.id := by
  have hsame : ∀ op', some op = some op' → op'.id = op.id := by
    rintro _ ⟨⟩
    rfl
  induction script generalizing o op with
  | nil => exact ⟨⟨_, rfl⟩, hsame⟩
  | cons result script ih =>
    cases result with
    | again => exact ⟨⟨_, rfl⟩, hsame⟩
    | failed => exact ⟨letGo_frame o op.nextEntryPtr, by simp⟩
    | wrote n =>
      unfold continueReadOp
      refine (nextState_frame dataType o op _).bind fun c hc => ?_
      obtain ⟨⟨rc, hc⟩, hid⟩ := hc
      split
      · exact ⟨⟨rc, hc⟩, hid⟩
      · next op₁ hop₁ =>
        rw [hc]
        refine (ih _ op₁ (by rintro _ ⟨⟩; rfl)).bind fun l hl => ?_
        obtain ⟨⟨rc₂, hl⟩, hid₂⟩ := hl
        exact ⟨⟨rc₂, hl⟩, fun op' hop' => (hid₂ op' hop').trans (hid op₁ hop₁)⟩

/-- Storing a read keeps the ids that were there. -/
theorem store_frame (c : Continued) (id : Nat) (hid : ∀ op, c.op = some op → op.id = id) :
    ∃ readOpList, c.store id = { c.obs with readOpList } ∧
      ∀ op ∈ readOpList, ∃ op' ∈ c.obs.readOpList, op'.id = op.id := by
  unfold Continued.store
  split
  · next op hop =>
    refine ⟨_, rfl, ?_⟩
    intro op₁ hmem
    obtain ⟨op', hop', rfl⟩ := List.mem_map.mp hmem
    refine ⟨op', hop', ?_⟩
    split
    · next heq => exact heq.trans (hid op hop).symm
    · rfl
  · refine ⟨_, rfl, ?_⟩
    intro op₁ hmem
    exact ⟨op₁, List.mem_of_mem_filter hmem, rfl⟩

theorem fdEventHandler_frame (dataType : DataType) (o : Observation) (id : Nat) (hangUp : Bool)
    (script : List WriteResult) :
    Returns (readOpFdEventHandler P dataType o id hangUp script) fun r =>
      ∃ refCount readOpList, r.1 = { o with refCount, readOpList } ∧
        ∀ op ∈ readOpList, ∃ op' ∈ o.readOpList, op'.id = op.id := by
  unfold readOpFdEventHandler
  split
  · exact ⟨_, _, rfl, fun op hop => ⟨op, hop, rfl⟩⟩
  · next op hfind =>
    have hopid : op.id = id := by simpa using List.find?_some hfind
    refine (continueReadOp_frame _ _ _ _).bind fun c hc => ?_
    obtain ⟨⟨rc, hc⟩, hid⟩ := hc
    obtain ⟨ops, hops, hmem⟩ := store_frame c id fun op' hop' => (hid op' hop').trans hopid
    refine ⟨rc, ops, by rw [hops, hc], ?_⟩
    rw [hc] at hmem
    exact hmem

theorem readBufferJson_frame (ctx : ObsContext) (o : Observation) (id : Nat) (startAfter : Double)
    (script : List WriteResult) :
    Returns (obsReadBufferJson P ctx o id startAfter script) fun r =>
      ∃ refCount readOpList, r.1 = { o with refCount, readOpList } ∧
        ∀ op ∈ readOpList, op.id = id ∨ ∃ op' ∈ o.readOpList, op'.id = op.id := by
  unfold obsReadBufferJson
  dsimp only
  obtain ⟨rc, ho⟩ := hold_frame o (findAfter P ctx.env o startAfter)
  rw [ho]
  refine (loadLoop_frame _ _ _ _).bind fun l hl => ?_
  obtain ⟨⟨rc₁, hl⟩, hlid⟩ := hl
  refine (continueReadOp_frame _ _ _ _).bind fun c hc => ?_
  obtain ⟨⟨rc₂, hc⟩, hid⟩ := hc
  obtain ⟨ops, hops, hmem⟩ := store_frame c id fun op' hop' => (hid op' hop').trans hlid
  refine ⟨rc₂, ops, by rw [hops, hc, hl], ?_⟩
  intro op hop
  obtain ⟨op', hop', heq⟩ := hmem op hop
  rw [hc] at hop'
  rcases List.mem_append.mp hop' with hold | hnew
  · rw [hl] at hold
    exact .inr ⟨op', hold, heq⟩
  · rw [List.mem_singleton] at hnew
    subst hnew
    exact .inl (heq.symm.trans hlid)

/-! ### The invariant of the sample buffer -/

theorem Observation.BufferOk.congr (h : o.BufferOk) (hl : o'.sampleList = o.sampleList)
    (hc : o'.count = o.count) (hm : o'.maxCount = o.maxCount)
    (ht : o'.bufferedType = o.bufferedType) : o'.BufferOk := by
  have hs : o'.samples = o.samples := by rw [Observation.samples, Observation.samples, hl]
  refine ⟨⟨?_, ?_, ?_⟩, ?_, ?_⟩
  · rw [hc, hl]
    exact h.count_eq
  · rw [hs]
    exact h.inOrder
  · rw [hs, ht]
    exact h.typed
  · rw [hc, hm]
    exact h.count_le
  · rw [hm]
    exact h.maxCount_lt

theorem bufferOk_emptied {maxCount : Nat} (hm : maxCount < 2 ^ 32) (refCount : Nat → Nat)
    (transformType : TransformType) :
    Observation.BufferOk { o with
      sampleList := [], count := 0, refCount, maxCount, transformType } := by
  refine ⟨⟨rfl, List.isChain_nil, ?_⟩, Nat.zero_le _, hm⟩
  simp [Observation.samples]

theorem bufferOk_step (hs : ObsStep P o evs o') (h : o.BufferOk) : o'.BufferOk := by
  cases hs with
  | process ctx t s hs hp => exact ((sat_processAccepted (B := NotFatal) h hs).result hp).1
  | accept now => exact h.congr rfl rfl rfl rfl
  | settings => exact h.congr rfl rfl rfl rfl
  | transform ty ht =>
    obtain ⟨refCount, maxCount, rfl, hm⟩ := (sat_setTransform (B := NotFatal) h ty).result ht
    exact bufferOk_emptied hm refCount ty
  | maxCount ctx count hc => exact ((sat_setBufferMaxCount (B := NotFatal) h count).result hc).1
  | backupPeriod ctx seconds hp =>
    obtain ⟨_, _, _, rfl⟩ := (sat_setBufferBackupPeriod (B := NotFatal) h.typed seconds).result hp
    exact h.congr rfl rfl rfl rfl
  | backup ctx hb =>
    cases (sat_backup (B := NotFatal) h.typed).result hb
    exact h.congr rfl rfl rfl rfl
  | startRead ctx id hid startAfter script hr =>
    obtain ⟨_, _, rfl, _⟩ := (readBufferJson_frame ctx o id startAfter script).result hr
    exact h.congr rfl rfl rfl rfl
  | fdEvent dataType id hangUp script hf =>
    obtain ⟨_, _, rfl, _⟩ := (fdEventHandler_frame dataType o id hangUp script).result hf
    exact h.congr rfl rfl rfl rfl

/-! ### Restoring a backup -/

theorem sat_readValue (env : Environment) (t : DataType) (ts : Double) (file : Bytes) :
    Sat NotFatal (readValue env t ts file) fun r =>
      ∀ p, r = some p → p.1.type = t ∧ p.1.via = [] ∧ p.1.hops = 0 := by
  have htext : ∀ {t : DataType} {create : Environment → Double → Bytes → Except Fault DataSample},
      (∀ b, Sat NotFatal (create env ts b) fun s => s.type = t ∧ s.via = [] ∧ s.hops = 0) →
      Sat NotFatal (readValue.readText env ts file create)
        fun r => ∀ p, r = some p → p.1.type = t ∧ p.1.via = [] ∧ p.1.hops = 0 := by
    intro t create hcreate
    unfold readValue.readText
    split
    · simp
    · split
      · simp
      · split
        · simp
        · refine (hcreate _).bind fun s hs => ?_
          simpa using hs
  cases t with
  | trigger => simp [readValue, dataSampleCreateTrigger, createSample, DataSample.type, Value.type]
  | boolean =>
    simp only [readValue, sat_pure, Option.map_eq_some_iff]
    rintro _ ⟨_, _, rfl⟩
    exact ⟨rfl, rfl, rfl⟩
  | numeric =>
    simp only [readValue, sat_pure, Option.map_eq_some_iff]
    rintro _ ⟨_, _, rfl⟩
    exact ⟨rfl, rfl, rfl⟩
  | string => exact htext fun b => (sat_textOf fits_of_notFatal).bind fun _ _ => ⟨rfl, rfl, rfl⟩
  | json => exact htext fun b => (sat_textOf fits_of_notFatal).bind fun _ _ => ⟨rfl, rfl, rfl⟩

section Restore

/- `I k o`: what holds of a buffer that is being filled when `k` more samples may follow. -/
variable {I : Nat → Observation → Prop}
  (hadd : ∀ k o s, s.type = o.bufferedType → I (k + 1) o → I k (addToBuffer o s))

include hadd

theorem sat_readSamples (env : Environment) (n : Nat) (newest : DataSample) (file : Bytes)
    (hs : newest.type = o.bufferedType ∧ newest.via = [] ∧ newest.hops = 0) (h : I (n + 1) o) :
    Sat NotFatal (readSamples env o.bufferedType n o newest file) fun r =>
      (∃ k, I k r.1) ∧ r.1.bufferedType = o.bufferedType ∧
      ∀ s, r.2 = some s → s.type = o.bufferedType ∧ s.via = [] ∧ s.hops = 0 := by
  induction n generalizing o newest file with
  | zero =>
    refine ⟨⟨_, h⟩, rfl, ?_⟩
    intro s hr
    simp only [Option.ite_none_right_eq_some, Option.some.injEq] at hr
    exact hr.2 ▸ hs
  | succ n ih =>
    have h' := hadd _ _ newest hs.1 h
    have ht := bufferedType_addToBuffer o newest
    unfold readSamples readSamples.readNext
    dsimp only
    split
    · exact ⟨⟨_, h'⟩, ht, by simp⟩
    · refine (sat_readValue env _ _ _).bind fun read hread => ?_
      cases read with
      | none => exact ⟨⟨_, h'⟩, ht, by simp⟩
      | some p =>
        have := ih (o := addToBuffer o newest) p.1 p.2 (by rw [ht]; exact hread p rfl) h'
        rwa [ht] at this

theorem sat_readSamplesFromFile
    (htrunc : ∀ k o, I k o → Sat NotFatal (truncateBuffer o 0) fun r =>
      I k r.1 ∧ r.1.bufferedType = o.bufferedType)
    (env : Environment) (file : Bytes) (count : Nat) (h : I count o) :
    Sat NotFatal (readSamplesFromFile env o file count) fun r =>
      (∃ k, I k r.1) ∧ r.1.bufferedType = o.bufferedType ∧
      ∀ s, r.2.2 = some s → s.type = o.bufferedType ∧ s.via = [] ∧ s.hops = 0 := by
  unfold readSamplesFromFile
  split
  · exact ⟨⟨_, h⟩, rfl, by simp⟩
  · next n =>
    have hread : Sat NotFatal (readSamples.readNext env o.bufferedType o file
        (readSamples env o.bufferedType n o)) fun r =>
        (∃ k, I k r.1) ∧ r.1.bufferedType = o.bufferedType ∧
        ∀ s, r.2 = some s → s.type = o.bufferedType ∧ s.via = [] ∧ s.hops = 0 := by
      unfold readSamples.readNext
      split
      · exact ⟨⟨_, h⟩, rfl, by simp⟩
      · refine (sat_readValue env _ _ _).bind fun read hread => ?_
        cases read with
        | none => exact ⟨⟨_, h⟩, rfl, by simp⟩
        | some p => exact sat_readSamples hadd env n p.1 p.2 (hread p rfl) h
    refine hread.bind fun read hread => ?_
    obtain ⟨⟨k, hk⟩, ht, hs⟩ := hread
    split
    · next newest heq => exact ⟨⟨k, hk⟩, ht, by simpa using hs newest heq⟩
    · refine (htrunc k _ hk).bind fun emptied he => ?_
      exact ⟨⟨k, he.1⟩, he.2.trans ht, by simp⟩

theorem sat_restoreContent
    (hnew : ∀ t n, n < 2 ^ 32 → I n { obsCreate with bufferedType := t, maxCount := n })
    (htrunc : ∀ k o, I k o → Sat NotFatal (truncateBuffer o 0) fun r =>
      I k r.1 ∧ r.1.bufferedType = o.bufferedType)
    (env : Environment) (file : Bytes) :
    Sat NotFatal (obsRestoreContent env obsCreate file) fun r =>
      (∃ k, I k r.1) ∧
        ∀ s, r.2.2 = some s → s.type = r.1.bufferedType ∧ s.via = [] ∧ s.hops = 0 := by
  unfold obsRestoreContent
  split
  · split
    · exact ⟨⟨0, hnew .trigger 0 (by decide)⟩, by simp⟩
    · split
      · exact ⟨⟨0, hnew .trigger 0 (by decide)⟩, by simp⟩
      · next dataType _ =>
        dsimp only
        split
        · exact ⟨⟨0, hnew dataType 0 (by decide)⟩, by simp⟩
        · next count file hcount =>
          have hlen : count.length = 4 := by
            unfold takeBytes at hcount
            split at hcount
            · cases hcount
            · cases hcount
              simp only [List.length_take]
              omega
          have hlt := decodeLe_lt count
          rw [hlen] at hlt
          refine (sat_readSamplesFromFile hadd htrunc env file (decodeLe count)
            (hnew dataType _ (by simpa using hlt))).mono ?_
          rintro r ⟨hk, ht, hs⟩
          exact ⟨hk, by rw [ht]; exact hs⟩
  · exact ⟨⟨0, hnew .trigger 0 (by decide)⟩, by simp⟩

end Restore

theorem count_addToBuffer_le (o : Observation) (s : DataSample) :
    (addToBuffer o s).count ≤ o.count + 1 := by
  rcases addToBuffer_cases o s with ⟨h, _⟩ | h <;> rw [h]
  · omega
  · exact Nat.le_refl _

theorem sat_restoreContent_bufferOk (env : Environment) (file : Bytes) :
    Sat NotFatal (obsRestoreContent env obsCreate file) fun r =>
      r.1.BufferOk ∧ r.1.readOpList = [] ∧ r.1.lastPushTime = obsCreate.lastPushTime ∧
      ∀ s, r.2.2 = some s → s.type = r.1.bufferedType ∧ s.via = [] ∧ s.hops = 0 := by
  refine (sat_restoreContent
    (I := fun k o => o.BufferCore ∧ o.count + k ≤ o.maxCount ∧ o.maxCount < 2 ^ 32 ∧
      o.readOpList = [] ∧ o.lastPushTime = obsCreate.lastPushTime)
    ?_ ?_ ?_ env file).mono ?_
  · rintro k o s hs ⟨hc, hle, hlt, hreads, hlast⟩
    have hset := sameSettings_addToBuffer o s
    have hmax := hset.maxCount
    have hcount := count_addToBuffer_le o s
    exact ⟨hc.add hs, by omega, by omega, hset.readOpList.trans hreads,
      (lastPushTime_addToBuffer o s).trans hlast⟩
  · intro t n hn
    refine ⟨⟨rfl, List.isChain_nil, ?_⟩, Nat.le_of_eq (Nat.zero_add n), hn, rfl, rfl⟩
    simp [Observation.samples, obsCreate]
  · rintro k o ⟨hc, hle, hlt, hreads, hlast⟩
    refine (sat_truncateBuffer hc.count_eq 0).mono ?_
    rintro ⟨_, evs⟩ ⟨refCount, rfl⟩
    have hk := hc.keepLast 0 refCount
    refine ⟨⟨hk, ?_, hlt, hreads, hlast⟩, rfl⟩
    simp only [Nat.min_zero]
    omega
  · rintro r ⟨⟨k, hc, hle, hlt, hreads, hlast⟩, hs⟩
    exact ⟨⟨hc, by omega, hlt⟩, hreads, hlast, hs⟩

theorem ObsReachable.bufferOk {log : List ObsEvent} (h : ObsReachable P log o) : o.BufferOk := by
  induction h with
  | create => exact bufferOk_obsCreate
  | restore env content h => exact ((sat_restoreContent_bufferOk env content).result h).1
  | step hr hs ih => exact bufferOk_step hs ih

end MangOH.DataHub
