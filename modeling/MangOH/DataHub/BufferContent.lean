import MangOH.DataHub.Reachability
import MangOH.DataHub.Scenario

/-! What the sample buffer of an Observation holds: the newest of the samples pushed to it. -/
namespace MangOH.DataHub

open Outcome BoundedQueue

variable {P : Platform} {ctx : ObsContext} {o o' : Observation} {s : DataSample} {t : DataType}
  {pushes : List DataSample}

theorem le_of_not_older {a b : DataSample} (ha : a.timestamp.isNaN = false)
    (hb : b.timestamp.isNaN = false) (h : olderThan b a = false) :
    a.timestamp.le b.timestamp = true := by
  have := (Double.not_lt_iff hb ha).mp h
  simp [Double.le, ha, hb, this]

theorem olderThan_trans (a b c : DataSample) (ha : a.timestamp.isNaN = false)
    (hb : b.timestamp.isNaN = false) (hc : c.timestamp.isNaN = false)
    (hba : olderThan b a = false) (hcb : olderThan c b = false) : olderThan c a = false := by
  have h₁ := (Double.not_lt_iff hb ha).mp hba
  have h₂ := (Double.not_lt_iff hc hb).mp hcb
  exact (Double.not_lt_iff hc ha).mpr (h₁.trans h₂)

/-- What can happen to an Observation besides pushes and changes of its buffer's settings. -/
inductive BufferIdle (P : Platform) (o : Observation) : Observation → Prop
  | accept (now : Nat) : BufferIdle P o { o with lastPushTime := now }
  | settings (highLimit lowLimit changeBy minPeriod : Double) (jsonExtraction : CString) :
      BufferIdle P o { o with highLimit, lowLimit, changeBy, minPeriod, jsonExtraction }
  | backupPeriod (ctx : ObsContext) {o' : Observation} {evs : List ObsEvent} (seconds : UInt32)
      (h : obsSetBufferBackupPeriod P ctx o seconds = .ok (o', evs)) : BufferIdle P o o'
  | backup (ctx : ObsContext) {o' : Observation} {evs : List ObsEvent}
      (h : backup P ctx o = .ok (o', evs)) : BufferIdle P o o'
  | startRead (ctx : ObsContext) {o' : Observation} {evs : List ObsEvent} (id : Nat)
      (hid : ∀ op ∈ o.readOpList, op.id ≠ id) (startAfter : Double) (script : List WriteResult)
      (h : obsReadBufferJson P ctx o id startAfter script = .ok (o', evs)) : BufferIdle P o o'
  | fdEvent (dataType : DataType) {o' : Observation} {evs : List ObsEvent} (id : Nat)
      (hangUp : Bool) (script : List WriteResult)
      (h : readOpFdEventHandler P dataType o id hangUp script = .ok (o', evs)) :
      BufferIdle P o o'

/-- Samples of one type are pushed to an Observation, the oldest first. -/
inductive PushRun (P : Platform) (t : DataType) (o : Observation) :
    List DataSample → Observation → Prop
  | refl : PushRun P t o [] o
  | push {pushes : List DataSample} {o' o'' : Observation} {evs : List ObsEvent}
      (hr : PushRun P t o pushes o') (ctx : ObsContext) (s : DataSample) (hs : s.type = t)
      (h : obsProcessAccepted P ctx o' t s = .ok (o'', evs)) : PushRun P t o (pushes ++ [s]) o''
  | idle {pushes : List DataSample} {o' o'' : Observation} (hr : PushRun P t o pushes o')
      (hs : BufferIdle P o' o'') : PushRun P t o pushes o''

theorem BufferIdle.obsStep (h : BufferIdle P o o') : ∃ evs, ObsStep P o evs o' := by
  cases h with
  | accept now => exact ⟨_, .accept o now⟩
  | settings hi lo by_ period spec => exact ⟨_, .settings o hi lo by_ period spec⟩
  | backupPeriod ctx seconds h => exact ⟨_, .backupPeriod ctx seconds h⟩
  | backup ctx h => exact ⟨_, .backup ctx h⟩
  | startRead ctx id hid startAfter script h => exact ⟨_, .startRead ctx id hid startAfter script h⟩
  | fdEvent dataType id hangUp script h => exact ⟨_, .fdEvent dataType id hangUp script h⟩

theorem BufferIdle.same (h : BufferIdle P o o') (hb : o.BufferOk) :
    o'.samples = o.samples ∧ o'.maxCount = o.maxCount ∧ o'.bufferedType = o.bufferedType := by
  cases h with
  | accept => exact ⟨rfl, rfl, rfl⟩
  | settings => exact ⟨rfl, rfl, rfl⟩
  | backupPeriod ctx seconds h =>
    obtain ⟨_, _, _, rfl⟩ := (sat_setBufferBackupPeriod (B := Bad) hb.typed seconds).result h
    exact ⟨rfl, rfl, rfl⟩
  | backup ctx h =>
    cases (sat_backup (B := Bad) hb.typed).result h
    exact ⟨rfl, rfl, rfl⟩
  | startRead ctx id hid startAfter script h =>
    obtain ⟨_, _, rfl, _⟩ := (readBufferJson_frame ctx o id startAfter script).result h
    exact ⟨rfl, rfl, rfl⟩
  | fdEvent dataType id hangUp script h =>
    obtain ⟨_, _, rfl, _⟩ := (fdEventHandler_frame dataType o id hangUp script).result h
    exact ⟨rfl, rfl, rfl⟩

/-- The buffer after a run of pushes: each is queued, and what is too much falls out. -/
theorem samples_pushRun (hb : o.BufferOk) (hrun : PushRun P t o pushes o') :
    o'.BufferOk ∧ o'.maxCount = o.maxCount ∧
    (pushes = [] → o'.bufferedType = o.bufferedType ∧ o'.samples = o.samples) ∧
    (pushes ≠ [] → 0 < o.maxCount → o'.bufferedType = t ∧
      o'.samples = keepLast o.maxCount
        (pushes.foldl (BoundedQueue.push olderThan)
          (if o.bufferedType = t then o.samples else []))) := by
  induction hrun with
  | refl => exact ⟨hb, rfl, fun _ => ⟨rfl, rfl⟩, fun h => absurd rfl h⟩
  | @push pushes o₁ o₂ evs hr ctx s hs hp ih =>
    obtain ⟨hb₁, hm₁, hnil, hcons⟩ := ih
    obtain ⟨hb₂, hsamples, htype, hset, _⟩ := (sat_processAccepted (B := Bad) hb₁ hs).result hp
    dsimp only at hb₂ hsamples htype hset
    refine ⟨hb₂, hset.maxCount.trans hm₁, fun h => by simp at h, fun _ hpos => ?_⟩
    have hne : ¬ o₁.maxCount = 0 := by omega
    rw [if_neg hne] at htype
    refine ⟨htype, ?_⟩
    rw [hsamples, bufferAfter, if_neg hne, hm₁, List.foldl_append]
    by_cases hpushes : pushes = []
    · obtain ⟨ht₁, hs₁⟩ := hnil hpushes
      rw [ht₁, hs₁, hpushes]
      rfl
    · obtain ⟨ht₁, hs₁⟩ := hcons hpushes hpos
      rw [if_pos ht₁, hs₁, keepLast_push olderThan hpos]
      rfl
  | idle hr hs ih =>
    obtain ⟨hb₁, hm₁, hnil, hcons⟩ := ih
    obtain ⟨hsamples, hmax, htype⟩ := hs.same hb₁
    obtain ⟨_, hstep⟩ := hs.obsStep
    rw [hsamples, hmax, htype]
    exact ⟨bufferOk_step hstep hb₁, hm₁, hnil, hcons⟩

/-- The newest of the samples pushed since the buffer was last empty, less those that were older
than a sample kept before them. -/
theorem samples_eq_keepLast (hb : o.BufferOk) (hrun : PushRun P t o pushes o')
    (hempty : o.samples = [] ∨ o.bufferedType ≠ t ∧ pushes ≠ [])
    (hnan : ∀ s ∈ pushes, s.timestamp.isNaN = false) :
    o'.samples = keepLast o.maxCount (kept olderThan pushes) := by
  obtain ⟨hb', hm, hnil, hcons⟩ := samples_pushRun hb hrun
  by_cases hpushes : pushes = []
  · rcases hempty with hempty | ⟨_, hne⟩
    · rw [(hnil hpushes).2, hempty, hpushes]
      simp [keepLast, kept]
    · exact absurd hpushes hne
  · rcases Nat.eq_zero_or_pos o.maxCount with h0 | hpos
    · have hlen : o'.samples.length = 0 := by
        rw [length_samples, ← hb'.count_eq]
        have := hb'.count_le
        omega
      rw [List.eq_nil_of_length_eq_zero hlen, h0]
      simp [keepLast]
    · have hstart : (if o.bufferedType = t then o.samples else []) = [] := by
        rcases hempty with hempty | ⟨hne, _⟩
        · rw [hempty]
          split <;> rfl
        · exact if_neg hne
      rw [(hcons hpushes hpos).2, hstart, foldl_push_eq_kept olderThan_trans hnan]

/-- The buffer of an Observation: a counter, an order, a type, and the newest samples pushed. -/
structure BufferLaw (P : Platform) (o : Observation) : Prop where
  count_eq : o.count = o.sampleList.length
  count_le : o.count ≤ o.maxCount
  inOrder : (∀ s ∈ o.samples, s.timestamp.isNaN = false) →
    o.samples.IsChain fun a b => a.timestamp.le b.timestamp = true
  typed : ∀ s ∈ o.samples, s.type = o.bufferedType
  content : ∀ t pushes o', PushRun P t o pushes o' →
    o.samples = [] ∨ o.bufferedType ≠ t ∧ pushes ≠ [] →
    (∀ s ∈ pushes, s.timestamp.isNaN = false) →
    o'.samples = keepLast o.maxCount (kept olderThan pushes)

theorem bufferLaw_of_bufferOk (hb : o.BufferOk) : BufferLaw P o := by
  refine ⟨hb.count_eq, hb.count_le, ?_, hb.typed, ?_⟩
  · intro hnan
    refine List.IsChain.imp_of_mem_imp ?_ hb.inOrder
    exact fun a b ha hb hold => le_of_not_older (hnan a ha) (hnan b hb) hold
  · exact fun t pushes o' hrun hempty hnan => samples_eq_keepLast hb hrun hempty hnan

/-- The buffer law holds of every Observation in every state of the hub, and after every call of a
function of `obs.c` on any Observation. -/
theorem buffer_law {h : Hub} (hr : Reachable P h) :
    (∀ r x o, h.resources r = some x → x.cls = .observation o → BufferLaw P o) ∧
    ∀ log o, ObsReachable P log o → BufferLaw P o := by
  have hall : ∀ log o, ObsReachable P log o → BufferLaw P o := fun log o ho =>
    bufferLaw_of_bufferOk ho.bufferOk
  refine ⟨fun r x o hx ho => ?_, hall⟩
  obtain ⟨log, hlog, _⟩ := observation_reachable (fun _ => True) hr
    (fun _ _ _ => trivial) hx ho
  exact hall log o hlog

/-- Of three samples pushed, one is older than the first and dropped; there is room for two. -/
def lateSampleRun : List Op :=
  [.adminCreateObs (ascii "o"),
   .adminSetBufferMaxCount (ascii "o") 2,
   .adminPush (ascii "/obs/o") (double 3) (.numeric (double 30)),
   .adminPush (ascii "/obs/o") (double 2) (.numeric (double 20)),
   .adminPush (ascii "/obs/o") (double 4) (.numeric (double 40))]

theorem buffer_law_lateSampleRun : ∃ h x o, Reachable smallPlatform h ∧
    h.resources 0 = some x ∧ x.cls = .observation o ∧
    o.samples.map (·.timestamp) = [double 3, double 4] ∧ BufferLaw smallPlatform o := by
  have hrun : smallRunEnds lateSampleRun (fun h => (h.observation 0).any fun o =>
      o.samples.map (·.timestamp) = [double 3, double 4]) = true := by
    decide +kernel
  obtain ⟨h, hr, hp⟩ := exists_of_smallRunEnds hrun
  obtain ⟨o, ho, hsamples⟩ := (Option.any_eq_true _ _).mp hp
  obtain ⟨x, hx, hcls⟩ := observation_eq_some ho
  exact ⟨h, x, o, hr, hx, hcls, of_decide_eq_true hsamples, (buffer_law hr).1 0 x o hx hcls⟩

end MangOH.DataHub
