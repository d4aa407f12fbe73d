import MangOH.DataHub.Typing
import MangOH.Lib.BoundedQueue

/-! The sample buffer of an Observation: what each function does to it, and its invariant. -/
namespace MangOH.DataHub

open Outcome BoundedQueue

variable {P : Platform} {ctx : ObsContext} {o : Observation} {s : DataSample} {t : DataType}
  {B : Fault → Prop}

/-- The order in which `AddToBuffer` compares samples. -/
def olderThan (a b : DataSample) : Bool := a.timestamp.lt b.timestamp

/-- The counter, the order and the types of a sample buffer. -/
structure Observation.BufferCore (o : Observation) : Prop where
  count_eq : o.count = o.sampleList.length
  inOrder : InOrder olderThan o.samples
  typed : ∀ s ∈ o.samples, s.type = o.bufferedType

structure Observation.BufferOk (o : Observation) : Prop extends o.BufferCore where
  count_le : o.count ≤ o.maxCount
  maxCount_lt : o.maxCount < 2 ^ 32

theorem length_samples : o.samples.length = o.sampleList.length := List.length_map _

theorem popOldest_cons {e : BufferEntry} {rest : List BufferEntry} (h : o.sampleList = e :: rest) :
    popOldest o = .ok ({ o with sampleList := rest, count := o.count - 1 }.release e,
      .evicting (o.refCount e.id)) := by
  simp [popOldest, h]

theorem sat_truncateLoop {k : Nat} (h : k ≤ o.sampleList.length) :
    Sat B (truncateLoop k o) fun r => ∃ refCount,
      r.1 = { o with sampleList := o.sampleList.drop k, count := o.count - k, refCount } := by
  induction k generalizing o with
  | zero => exact ⟨o.refCount, rfl⟩
  | succ k ih =>
    obtain ⟨e, rest, hl⟩ := List.exists_cons_of_length_pos (by omega : 0 < o.sampleList.length)
    rw [truncateLoop, popOldest_cons hl]
    have hk : k ≤ rest.length := by simpa [hl] using h
    refine (ih hk).bind ?_
    rintro ⟨_, evs⟩ ⟨refCount, rfl⟩
    exact ⟨refCount, by simp [Observation.release, hl, Nat.sub_sub, Nat.add_comm 1]⟩

theorem sat_truncateBuffer (h : o.count = o.sampleList.length) (n : Nat) :
    Sat B (truncateBuffer o n) fun r => ∃ refCount,
      r.1 = { o with
        sampleList := keepLast n o.sampleList, count := min o.count n, refCount } := by
  refine (sat_truncateLoop (by omega)).mono ?_
  rintro ⟨_, evs⟩ ⟨refCount, rfl⟩
  have hmin : o.count - (o.count - n) = min o.count n := by omega
  exact ⟨refCount, by rw [hmin, keepLast, h]⟩

theorem samples_keepLast {sampleList : List BufferEntry} {n : Nat} :
    (keepLast n sampleList).map (·.sampleRef) = keepLast n (sampleList.map (·.sampleRef)) := by
  simp [keepLast, List.map_drop]

theorem getLast?_samples : o.samples.getLast? = o.sampleList.getLast?.map (·.sampleRef) :=
  List.getLast?_map

theorem addToBuffer_cases (o : Observation) (s : DataSample) :
    addToBuffer o s = o ∧ o.samples ≠ [] ∨ addToBuffer o s = addToBuffer.queue o s := by
  unfold addToBuffer
  split
  · next newest hlast =>
    split
    · refine .inl ⟨rfl, ?_⟩
      intro hnil
      simp [Observation.samples] at hnil
      simp [hnil] at hlast
    · exact .inr rfl
  · exact .inr rfl

theorem samples_addToBuffer (o : Observation) (s : DataSample) :
    (addToBuffer o s).samples = push olderThan o.samples s := by
  unfold addToBuffer push
  rw [getLast?_samples]
  cases o.sampleList.getLast? with
  | none => simp [addToBuffer.queue, Observation.samples]
  | some newest =>
    simp only [Option.map_some, olderThan]
    split <;> simp_all [addToBuffer.queue, Observation.samples]

/-- Only the list, its counter and the allocation of entries change. -/
theorem addToBuffer_frame (o : Observation) (s : DataSample) :
    ∃ sampleList count refCount nextEntry,
      addToBuffer o s = { o with sampleList, count, refCount, nextEntry } := by
  rcases addToBuffer_cases o s with ⟨h, _⟩ | h
  · exact ⟨_, _, _, _, h⟩
  · exact ⟨_, _, _, _, h⟩

theorem bufferedType_addToBuffer (o : Observation) (s : DataSample) :
    (addToBuffer o s).bufferedType = o.bufferedType := by
  obtain ⟨_, _, _, _, h⟩ := addToBuffer_frame o s
  rw [h]

theorem Observation.BufferCore.add (h : o.BufferCore) (hs : s.type = o.bufferedType) :
    (addToBuffer o s).BufferCore := by
  refine ⟨?_, ?_, ?_⟩
  · rcases addToBuffer_cases o s with ⟨ha, _⟩ | ha <;> rw [ha]
    · exact h.count_eq
    · simp [addToBuffer.queue, h.count_eq]
  · rw [samples_addToBuffer]
    exact inOrder_push olderThan h.inOrder
  · rw [samples_addToBuffer, bufferedType_addToBuffer]
    intro s' hs'
    rcases push_cases olderThan o.samples s with hp | hp <;> rw [hp] at hs'
    · exact h.typed s' hs'
    · rcases List.mem_append.mp hs' with hs' | hs'
      · exact h.typed s' hs'
      · rw [List.mem_singleton.mp hs']
        exact hs

theorem Observation.BufferCore.keepLast (h : o.BufferCore) (n : Nat) (refCount : Nat → Nat) :
    BufferCore { o with
      sampleList := BoundedQueue.keepLast n o.sampleList, count := min o.count n, refCount } := by
  refine ⟨?_, ?_, ?_⟩
  · simp [h.count_eq]
  · have := inOrder_keepLast olderThan (n := n) h.inOrder
    simpa [Observation.samples, samples_keepLast] using this
  · intro s hs
    simp only [Observation.samples, samples_keepLast] at hs
    exact h.typed s (List.mem_of_mem_drop hs)

/-- Dumping the buffer makes room for samples of another type. -/
theorem bufferCore_retype (o : Observation) (t : DataType) (refCount : Nat → Nat) :
    Observation.BufferCore { o with
      sampleList := BoundedQueue.keepLast 0 o.sampleList, count := min o.count 0, refCount,
      bufferedType := t } := by
  refine ⟨?_, ?_, ?_⟩ <;> simp [Observation.samples, BoundedQueue.keepLast]

theorem sat_writeValue (h : s.type = t) : Sat B (writeValue t s) fun _ => True := by
  obtain ⟨ts, v, u⟩ := s
  subst h
  cases v <;> exact trivial

theorem sat_writeSamplesToFile {l : List DataSample} (h : ∀ s ∈ l, s.type = t) :
    Sat B (writeSamplesToFile t l) fun _ => True := by
  induction l with
  | nil => exact trivial
  | cons s l ih =>
    rw [writeSamplesToFile]
    refine (sat_writeValue (h s (by simp))).bind fun value _ => ?_
    cases value with
    | none => exact trivial
    | some value => exact (ih fun s hs => h s (by simp [hs])).bind fun _ _ => trivial

/-- A backup leaves the buffer alone. -/
theorem sat_backup (h : ∀ s ∈ o.samples, s.type = o.bufferedType) :
    Sat B (backup P ctx o) fun r =>
      r.1 = { o with backupTimer := false, lastBackupTime := ctx.env.relSec % 2 ^ 32 } := by
  unfold backup
  split
  · exact rfl
  · split
    · exact rfl
    · have hcontent : Sat B (backupContent ctx.currentType
          { o with backupTimer := false, lastBackupTime := ctx.env.relSec % 2 ^ 32 })
          fun _ => True := (sat_writeSamplesToFile h).bind fun _ _ => trivial
      refine hcontent.bind fun content _ => ?_
      cases content <;> exact rfl

/-- The parts of an Observation that pushes do not change. -/
structure SameSettings (o o' : Observation) : Prop where
  highLimit : o'.highLimit = o.highLimit
  lowLimit : o'.lowLimit = o.lowLimit
  changeBy : o'.changeBy = o.changeBy
  minPeriod : o'.minPeriod = o.minPeriod
  transformType : o'.transformType = o.transformType
  maxCount : o'.maxCount = o.maxCount
  backupPeriod : o'.backupPeriod = o.backupPeriod
  jsonExtraction : o'.jsonExtraction = o.jsonExtraction
  readOpList : o'.readOpList = o.readOpList

/-- What `obs_ProcessAccepted` leaves in the buffer. -/
def bufferAfter (o : Observation) (t : DataType) (s : DataSample) : List DataSample :=
  if o.maxCount = 0 then o.samples
  else BoundedQueue.keepLast o.maxCount
    (push olderThan (if o.bufferedType = t then o.samples else []) s)

theorem sat_retype (h : o.BufferCore) (t : DataType) :
    Sat B (obsProcessAccepted.retype t o) fun r =>
      r.1.BufferCore ∧ r.1.bufferedType = t ∧
      r.1.samples = (if o.bufferedType = t then o.samples else []) ∧
      SameSettings o r.1 ∧ r.1.lastPushTime = o.lastPushTime := by
  unfold obsProcessAccepted.retype
  split
  · next ht => exact ⟨h, ht, rfl, by constructor <;> rfl, rfl⟩
  · next ht =>
    refine (sat_truncateBuffer h.count_eq 0).bind ?_
    rintro ⟨_, evs⟩ ⟨refCount, rfl⟩
    refine ⟨bufferCore_retype o t refCount, rfl, ?_, by constructor <;> rfl, rfl⟩
    simp [Observation.samples, BoundedQueue.keepLast]

theorem sat_save (h : ∀ s ∈ o.samples, s.type = o.bufferedType) :
    Sat B (obsProcessAccepted.save P ctx o) fun r => ∃ backupTimer lastBackupTime,
      r.1 = { o with backupTimer, lastBackupTime } := by
  unfold obsProcessAccepted.save
  split
  · exact ⟨_, _, rfl⟩
  · split
    · exact (sat_backup h).mono fun r hr => ⟨_, _, hr⟩
    · exact ⟨_, _, rfl⟩

theorem SameSettings.trans {o₁ o₂ o₃ : Observation} (h : SameSettings o₁ o₂)
    (h' : SameSettings o₂ o₃) : SameSettings o₁ o₃ := by
  obtain ⟨a, b, c, d, e, f, g, i, j⟩ := h
  obtain ⟨a', b', c', d', e', f', g', i', j'⟩ := h'
  constructor <;> simp_all

theorem sameSettings_addToBuffer (o : Observation) (s : DataSample) :
    SameSettings o (addToBuffer o s) := by
  obtain ⟨_, _, _, _, h⟩ := addToBuffer_frame o s
  rw [h]
  constructor <;> rfl

theorem lastPushTime_addToBuffer (o : Observation) (s : DataSample) :
    (addToBuffer o s).lastPushTime = o.lastPushTime := by
  obtain ⟨_, _, _, _, h⟩ := addToBuffer_frame o s
  rw [h]

theorem sat_processAccepted (h : o.BufferOk) (hs : s.type = t) :
    Sat B (obsProcessAccepted P ctx o t s) fun r =>
      r.1.BufferOk ∧ r.1.samples = bufferAfter o t s ∧
      r.1.bufferedType = (if o.maxCount = 0 then o.bufferedType else t) ∧
      SameSettings o r.1 ∧ r.1.lastPushTime = o.lastPushTime := by
  unfold obsProcessAccepted bufferAfter
  split
  · next h0 => exact ⟨h, rfl, rfl, by constructor <;> rfl, rfl⟩
  · next h0 =>
    refine (sat_retype h.toBufferCore t).bind ?_
    rintro ⟨o₁, e₁⟩ ⟨hc₁, ht₁, hb₁, hk₁, hl₁⟩
    dsimp only at hc₁ ht₁ hb₁ hk₁ hl₁ ⊢
    have hc := hc₁.add (s := s) (by rw [hs, ht₁])
    have hk := hk₁.trans (sameSettings_addToBuffer o₁ s)
    have hsamples := samples_addToBuffer o₁ s
    have htype := bufferedType_addToBuffer o₁ s
    have hlast := (lastPushTime_addToBuffer o₁ s).trans hl₁
    generalize addToBuffer o₁ s = o₂ at hc hk hsamples htype hlast
    rw [hk₁.maxCount]
    refine (sat_truncateBuffer hc.count_eq o.maxCount).bind ?_
    rintro ⟨_, e₂⟩ ⟨refCount, rfl⟩
    have hc₃ := hc.keepLast o.maxCount refCount
    refine (sat_save hc₃.typed).bind ?_
    rintro ⟨_, e₃⟩ ⟨backupTimer, lastBackupTime, rfl⟩
    refine ⟨⟨⟨hc₃.count_eq, hc₃.inOrder, hc₃.typed⟩, ?_, ?_⟩, ?_, htype.trans ht₁, ?_, hlast⟩
    · simp [hk.maxCount]
    · simpa [hk.maxCount] using h.maxCount_lt
    · rw [← hb₁, ← hsamples]
      exact samples_keepLast
    · obtain ⟨a, b, c, d, e, f, g, i, j⟩ := hk
      constructor <;> assumption

end MangOH.DataHub
