import MangOH.DataHub.BufferContent
import MangOH.DataHub.Spans

/-! The window of numbers that a transform looks at, from one push to the next. -/
namespace MangOH.DataHub

open Outcome BoundedQueue

variable {P : Platform} {env : Environment} {ctx : ObsContext} {o o' o'' : Observation}
  {s s' : DataSample} {tt : TransformType} {pushes : List DataSample} {window : Nat}
  {numbers : List Double} {d d' : Double} {log evs : List ObsEvent}

/-- What happens to an Observation once its transform is set: numbers are pushed, the oldest first,
and the buffer is given other sizes, except for none. The window gets larger by each push, up to the
size of the buffer, and is cut down to each new size. -/
inductive TransformRun (P : Platform) (o : Observation) :
    List DataSample → Nat → Observation → Prop
  | refl : TransformRun P o [] 0 o
  | push {pushes : List DataSample} {window : Nat} {o' o'' : Observation} {evs : List ObsEvent}
      (hr : TransformRun P o pushes window o') (ctx : ObsContext) (s : DataSample)
      (hs : s.type = .numeric) (h : obsProcessAccepted P ctx o' .numeric s = .ok (o'', evs)) :
      TransformRun P o (pushes ++ [s]) (min (window + 1) o'.maxCount) o''
  | resize {pushes : List DataSample} {window : Nat} {o' o'' : Observation} {evs : List ObsEvent}
      (hr : TransformRun P o pushes window o') (ctx : ObsContext) (count : UInt32)
      (hcount : 0 < count.toNat) (h : obsSetBufferMaxCount P ctx o' count = .ok (o'', evs)) :
      TransformRun P o pushes (min window count.toNat) o''
  | idle {pushes : List DataSample} {window : Nat} {o' o'' : Observation}
      (hr : TransformRun P o pushes window o') (hs : BufferIdle P o' o'') :
      TransformRun P o pushes window o''

/-- No sample is older than one before it. -/
def NonDecreasing (pushes : List DataSample) : Prop :=
  pushes.Pairwise fun a b => a.timestamp.le b.timestamp = true

/-- A number that is the mean, the least or the greatest of numbers, or NaN when there are none. -/
structure Aggregates (P : Platform) (tt : TransformType) (numbers : List Double) (d : Double) :
    Prop where
  mean : tt = .mean → P.ExactMean numbers → (d.isNaN = true ↔ numbers = []) ∧
    (numbers ≠ [] → d.isFinite = true ∧ d.toRat = exactMean numbers)
  min : tt = .min → (d.isNaN = true ↔ numbers = []) ∧
    (numbers ≠ [] → d ∈ numbers ∧ ∀ v ∈ numbers, d.le v = true)
  max : tt = .max → (d.isNaN = true ↔ numbers = []) ∧
    (numbers ≠ [] → d ∈ numbers ∧ ∀ v ∈ numbers, v.le d = true)

/-- What the filters are shown for a number that is pushed: an aggregate in its place, of the same
time. -/
structure Shows (P : Platform) (tt : TransformType) (numbers : List Double) (s s' : DataSample) :
    Prop where
  timestamp : s.timestamp.eq .zero = false → s'.timestamp = s.timestamp
  value : ∃ d, s'.value = .numeric d ∧ Aggregates P tt numbers d

/-! ### The buffer is the window -/

theorem BufferIdle.transformType (h : BufferIdle P o o') (hb : o.BufferOk) :
    o'.transformType = o.transformType := by
  cases h with
  | accept => rfl
  | settings => rfl
  | backupPeriod ctx seconds h =>
    obtain ⟨_, _, _, rfl⟩ := (sat_setBufferBackupPeriod (B := Bad) hb.typed seconds).result h
    rfl
  | backup ctx h =>
    cases (sat_backup (B := Bad) hb.typed).result h
    rfl
  | startRead ctx id hid startAfter script h =>
    obtain ⟨_, _, rfl, _⟩ := (readBufferJson_frame ctx o id startAfter script).result h
    rfl
  | fdEvent dataType id hangUp script h =>
    obtain ⟨_, _, rfl, _⟩ := (fdEventHandler_frame dataType o id hangUp script).result h
    rfl

/-- The buffer holds the window of the numbers pushed, and has room for one. -/
structure Windowed (tt : TransformType) (pushes : List DataSample) (window : Nat)
    (o : Observation) : Prop where
  bufferOk : o.BufferOk
  transformType : o.transformType = tt
  hasRoom : 0 < o.maxCount
  window_le : window ≤ pushes.length
  samples : o.samples = keepLast window pushes
  numeric : pushes ≠ [] → o.bufferedType = .numeric

theorem setTransform_maxCount (hb : o.BufferOk) (h : obsSetTransform o tt = .ok (o', evs)) :
    o'.maxCount = if tt ≠ .none ∧ o.maxCount = 0 then 1 else o.maxCount := by
  have hcount : ({ o with
      transformType := tt
      maxCount := if tt ≠ .none ∧ o.maxCount = 0 then 1 else o.maxCount } : Observation).count
        = o.sampleList.length := hb.count_eq
  obtain ⟨refCount, heq⟩ := (sat_truncateBuffer (B := Bad) hcount 0).result h
  cases heq
  rfl

theorem windowed_setTransform (hb : o.BufferOk) (htt : tt ≠ .none)
    (h : obsSetTransform o tt = .ok (o', evs)) : Windowed tt [] 0 o' := by
  have hmax := setTransform_maxCount hb h
  obtain ⟨refCount, maxCount, heq, hlt⟩ := (sat_setTransform (B := Bad) hb tt).result h
  cases heq
  refine ⟨bufferOk_emptied hlt refCount tt, rfl, ?_, le_rfl, rfl, fun hne => absurd rfl hne⟩
  rw [hmax]
  split
  · exact Nat.one_pos
  · next hsome =>
    have hne : o.maxCount ≠ 0 := fun hzero => hsome ⟨htt, hzero⟩
    exact Nat.pos_of_ne_zero hne

/-- A number that comes in order is the newest of the window. -/
theorem windowed_process (P : Platform) (ctx : ObsContext) (hw : Windowed tt pushes window o)
    (hs : s.type = .numeric) (hord : NonDecreasing (pushes ++ [s])) :
    ∃ o' evs, obsProcessAccepted P ctx o .numeric s = .ok (o', evs) ∧
      Windowed tt (pushes ++ [s]) (min (window + 1) o.maxCount) o' := by
  have hsat : Sat (fun _ => True) (obsProcessAccepted P ctx o .numeric s) _ :=
    sat_processAccepted hw.bufferOk hs
  cases hprocess : obsProcessAccepted P ctx o .numeric s with
  | error e =>
    rw [hprocess] at hsat
    exact absurd trivial hsat
  | ok r =>
    obtain ⟨o', evs⟩ := r
    obtain ⟨hok, hsamples, htype, hset, -⟩ := hsat.result hprocess
    dsimp only at hok hsamples htype hset
    have hroom : ¬ o.maxCount = 0 := Nat.ne_of_gt hw.hasRoom
    have hbefore : (if o.bufferedType = .numeric then o.samples else []) = o.samples := by
      by_cases hpushes : pushes = []
      · have hempty : o.samples = [] := by
          rw [hw.samples, hpushes]
          exact List.drop_nil
        rw [hempty, ite_self]
      · rw [if_pos (hw.numeric hpushes)]
    have hqueued : BoundedQueue.push olderThan o.samples s = o.samples ++ [s] := by
      refine push_of_not_older olderThan fun newest hnewest => ?_
      have hmem : newest ∈ pushes := by
        have hin := List.mem_of_getLast? hnewest
        rw [hw.samples] at hin
        exact List.mem_of_mem_drop hin
      have hle := (List.pairwise_append.mp hord).2.2 newest hmem s (List.mem_singleton_self s)
      obtain ⟨hn, hn', hkey⟩ := Double.le_eq_true.mp hle
      exact (Double.not_lt_iff hn' hn).mpr hkey
    refine ⟨o', evs, rfl, hok, hset.transformType.trans hw.transformType, ?_, ?_, ?_, fun _ => ?_⟩
    · rw [hset.maxCount]
      exact hw.hasRoom
    · have hle := hw.window_le
      rw [List.length_append, List.length_singleton]
      omega
    · rw [hsamples, bufferAfter, if_neg hroom, hbefore, hqueued, hw.samples,
        keepLast_window hw.window_le]
    · rw [htype, if_neg hroom]

theorem windowed_run (hw : Windowed tt [] 0 o) (hrun : TransformRun P o pushes window o')
    (hord : NonDecreasing pushes) : Windowed tt pushes window o' := by
  induction hrun with
  | refl => exact hw
  | @push pushes window o₁ o₂ evs hr ctx s hs hp ih =>
    have hbefore := ih (List.pairwise_append.mp hord).1
    obtain ⟨o₃, evs₃, hp', hafter⟩ := windowed_process P ctx hbefore hs hord
    cases hp.symm.trans hp'
    exact hafter
  | @resize pushes window o₁ o₂ evs hr ctx count hcount h ih =>
    have hbefore := ih hord
    obtain ⟨hok, hmax, htype, hsamples, -, htt, -⟩ :=
      (sat_setBufferMaxCount (B := Bad) hbefore.bufferOk count).result h
    dsimp only at hok hmax htype hsamples htt
    refine ⟨hok, htt.trans hbefore.transformType, hmax ▸ hcount, ?_, ?_, fun hne => ?_⟩
    · exact Nat.le_trans (Nat.min_le_left _ _) hbefore.window_le
    · rw [hsamples, hbefore.samples, keepLast_keepLast]
    · rw [htype]
      exact hbefore.numeric hne
  | @idle pushes window o₁ o₂ hr hs ih =>
    have hbefore := ih hord
    obtain ⟨hsamples, hmax, htype⟩ := hs.same hbefore.bufferOk
    obtain ⟨_, hstep⟩ := hs.obsStep
    refine ⟨bufferOk_step hstep hbefore.bufferOk, ?_, ?_, hbefore.window_le, ?_, fun hne => ?_⟩
    · exact (hs.transformType hbefore.bufferOk).trans hbefore.transformType
    · rw [hmax]
      exact hbefore.hasRoom
    · rw [hsamples]
      exact hbefore.samples
    · rw [htype]
      exact hbefore.numeric hne

/-! ### The aggregate of the window -/

theorem aggregates_aggregate (hnumbers : ∀ d ∈ numbers, d.isNaN = false) (tt : TransformType) :
    Aggregates P tt numbers (aggregate P tt numbers) := by
  constructor
  · rintro rfl hexact
    cases numbers with
    | nil => exact ⟨iff_of_true Double.isNaN_nan rfl, fun hne => absurd rfl hne⟩
    | cons d numbers =>
      have hmean := mean_exact hexact
      refine ⟨iff_of_false ?_ (by simp), fun _ => hmean⟩
      rw [aggregate, List.isEmpty_cons, if_neg Bool.false_ne_true,
        Double.isNaN_of_isFinite hmean.1]
      exact Bool.false_ne_true
  · rintro rfl
    exact ⟨isNaN_smallest hnumbers, smallest_spec hnumbers⟩
  · rintro rfl
    exact ⟨isNaN_largest hnumbers, largest_spec hnumbers⟩

/-- A number that is equal to an aggregate, and is one of the numbers, will do in its place. -/
theorem Aggregates.congr (h : Aggregates P tt numbers d) (heq : d'.eq d = true)
    (hmem : d' ∈ numbers) : Aggregates P tt numbers d' := by
  obtain ⟨hnum', hnum, hkey⟩ := Double.eq_eq_true.mp heq
  have hne : numbers ≠ [] := List.ne_nil_of_mem hmem
  have hnan : d'.isNaN = true ↔ numbers = [] := by
    rw [hnum']
    exact iff_of_false Bool.false_ne_true hne
  constructor
  · intro htt hexact
    refine ⟨hnan, fun _ => ?_⟩
    obtain ⟨-, hvalue⟩ := (h.mean htt hexact).2 hne
    refine ⟨hexact.finite d' hmem, le_antisymm ?_ ?_⟩
    · rw [← hvalue]
      exact Double.toRat_le_iff.mpr (Int.le_of_eq hkey)
    · rw [← hvalue]
      exact Double.toRat_le_iff.mpr (Int.le_of_eq hkey.symm)
  · intro htt
    refine ⟨hnan, fun _ => ⟨hmem, fun v hv => ?_⟩⟩
    obtain ⟨_, hv', hle⟩ := Double.le_eq_true.mp (((h.min htt).2 hne).2 v hv)
    exact Double.le_eq_true.mpr ⟨hnum', hv', hkey ▸ hle⟩
  · intro htt
    refine ⟨hnan, fun _ => ⟨hmem, fun v hv => ?_⟩⟩
    obtain ⟨hv', _, hle⟩ := Double.le_eq_true.mp (((h.max htt).2 hne).2 v hv)
    exact Double.le_eq_true.mpr ⟨hv', hnum', hkey ▸ hle⟩

theorem shows_updateSample (hs : s.value = .numeric d) (h : Aggregates P tt numbers d')
    (hmem : d.isNaN = false → d ∈ numbers) :
    ∃ s', updateSample env s .numeric d' = .ok s' ∧ Shows P tt numbers s s' := by
  have hold : dataSampleGetNumeric s = .ok d := by
    unfold dataSampleGetNumeric
    rw [hs]
  have hupdate : updateSample env s .numeric d' = .ok (if d.eq d' then s
      else { dataSampleCreateNumeric env s.timestamp d' with via := s.via }) := by
    unfold updateSample
    rw [hold]
    rfl
  refine ⟨_, hupdate, ?_⟩
  cases heq : d.eq d' with
  | true =>
    have hnum := (Double.eq_eq_true.mp heq).1
    exact ⟨fun _ => rfl, d, hs, h.congr heq (hmem hnum)⟩
  | false =>
    refine ⟨fun hzero => ?_, d', rfl, h⟩
    simp [dataSampleCreateNumeric, createSample, hzero]

theorem mem_numbersOf {l : List DataSample} (hs : s ∈ l) (hvalue : s.value = .numeric d)
    (hnum : d.isNaN = false) : d ∈ numbersOf l := by
  refine List.mem_filter.mpr ⟨List.mem_filterMap.mpr ⟨s, hs, ?_⟩, by simp [hnum]⟩
  rw [hvalue]
  rfl

/-- Once its transform is set, whatever numbers come in order and whatever sizes but none the buffer
is given in between, the filters are shown the aggregate of the window for each number, and the
buffer holds the numbers as they came. -/
theorem transform_window (ho : ObsReachable P log o) (htt : tt = .mean ∨ tt = .min ∨ tt = .max)
    (hset : obsSetTransform o tt = .ok (o', evs)) (hrun : TransformRun P o' pushes window o'')
    (ctx : ObsContext) (hs : s.type = .numeric) (hord : NonDecreasing (pushes ++ [s])) :
    ∃ after evs', obsProcessAccepted P ctx o'' .numeric s = .ok (after, evs') ∧
      after.samples = keepLast (min (window + 1) o''.maxCount) (pushes ++ [s]) ∧
      ∃ s', obsApplyTransform P ctx.env after .numeric s = .ok s' ∧
        Shows P tt (numbersOf (keepLast (min (window + 1) o''.maxCount) (pushes ++ [s]))) s s' := by
  have hsome : tt ≠ .none := by
    rintro rfl
    simp at htt
  have hbefore := windowed_run (windowed_setTransform ho.bufferOk hsome hset) hrun
    (List.pairwise_append.mp hord).1
  obtain ⟨after, evs', hprocess, hafter⟩ := windowed_process P ctx hbefore hs hord
  refine ⟨after, evs', hprocess, hafter.samples, ?_⟩
  obtain ⟨d, hvalue⟩ : ∃ d, s.value = .numeric d := by
    cases hv : s.value with
    | numeric d => exact ⟨d, rfl⟩
    | _ => simp [DataSample.type, hv, Value.type] at hs
  rw [obsApplyTransform_eq hafter.bufferOk.typed, hafter.transformType, if_neg hsome,
    hafter.samples]
  refine shows_updateSample hvalue (aggregates_aggregate isNaN_numbersOf tt) fun hnum => ?_
  -- the window is not empty, so the newest number is in it
  have hpos : 0 < min (window + 1) o''.maxCount :=
    Nat.lt_min.mpr ⟨Nat.succ_pos window, hbefore.hasRoom⟩
  exact mem_numbersOf (mem_keepLast_append hpos pushes s) hvalue hnum

/-- A number that comes at some second. -/
def numberAt (second n : Nat) : DataSample := ⟨double second, .numeric (double n), [], 0⟩

/-- An Observation that has just been told to show the greatest number. -/
def maximumOnly : Observation := { obsCreate with transformType := .max, maxCount := 1 }

def numericContext : ObsContext := ⟨smallEnvironment, none, .numeric⟩

/-- Between the second number and the third, the buffer is cut to one number and made larger
again. -/
theorem transformRun_cut : ∃ o' evs o'' after evs',
    obsSetTransform obsCreate .max = .ok (o', evs) ∧
    TransformRun smallPlatform o' [numberAt 40 9, numberAt 46 1] 1 o'' ∧ o''.maxCount = 3 ∧
    obsProcessAccepted smallPlatform numericContext o'' .numeric (numberAt 48 2) =
      .ok (after, evs') ∧
    obsApplyTransform smallPlatform smallEnvironment after .numeric (numberAt 48 2) =
      .ok (numberAt 48 2) := by
  have hset : obsSetTransform obsCreate .max = .ok (maximumOnly, []) := rfl
  have hstart : TransformRun smallPlatform maximumOnly [] 0 maximumOnly := .refl
  have hwide := hstart.resize numericContext 3 (by decide) rfl
  have hfirst := hwide.push numericContext (numberAt 40 9) rfl rfl
  have hsecond := hfirst.push numericContext (numberAt 46 1) rfl rfl
  have hcut := hsecond.resize numericContext 1 (by decide) rfl
  have hwider := hcut.resize numericContext 3 (by decide) rfl
  exact ⟨_, _, _, _, _, hset, hwider, rfl, rfl, rfl⟩

theorem nonDecreasing_nineOneTwo :
    NonDecreasing ([numberAt 40 9, numberAt 46 1] ++ [numberAt 48 2]) := by
  unfold NonDecreasing
  decide

theorem transform_window_cut : ∃ o' o'' after s',
    TransformRun smallPlatform o' [numberAt 40 9, numberAt 46 1] 1 o'' ∧ o''.maxCount = 3 ∧
    after.samples = [numberAt 46 1, numberAt 48 2] ∧
    obsApplyTransform smallPlatform smallEnvironment after .numeric (numberAt 48 2) = .ok s' ∧
    Shows smallPlatform .max [double 1, double 2] (numberAt 48 2) s' := by
  obtain ⟨o', evs, o'', _, _, hset, hrun, hmax, -, -⟩ := transformRun_cut
  obtain ⟨after, _, -, hsamples, s', happly, hshows⟩ :=
    transform_window .create (.inr (.inr rfl)) hset hrun numericContext rfl nonDecreasing_nineOneTwo
  rw [hmax] at hsamples hshows
  exact ⟨o', o'', after, s', hrun, hmax, hsamples, happly, hshows⟩

/-- Made as large as it was, the buffer does not get back what was cut: of three numbers, the
greatest is not shown. -/
theorem transform_window_fails : ∃ o' evs o'' after evs' s',
    obsSetTransform obsCreate .max = .ok (o', evs) ∧
    TransformRun smallPlatform o' [numberAt 40 9, numberAt 46 1] 1 o'' ∧ o''.maxCount = 3 ∧
    NonDecreasing ([numberAt 40 9, numberAt 46 1] ++ [numberAt 48 2]) ∧
    obsProcessAccepted smallPlatform numericContext o'' .numeric (numberAt 48 2) =
      .ok (after, evs') ∧
    obsApplyTransform smallPlatform smallEnvironment after .numeric (numberAt 48 2) = .ok s' ∧
    ¬ Shows smallPlatform .max (numbersOf (keepLast (min (max 3 1) 3)
      ([numberAt 40 9, numberAt 46 1] ++ [numberAt 48 2]))) (numberAt 48 2) s' := by
  obtain ⟨o', evs, o'', after, evs', hset, hrun, hmax, hprocess, happly⟩ := transformRun_cut
  refine ⟨o', evs, o'', after, evs', _, hset, hrun, hmax, nonDecreasing_nineOneTwo, hprocess,
    happly, fun hshows => ?_⟩
  obtain ⟨d, hd, haggregates⟩ := hshows.value
  cases hd
  have hnumbers : numbersOf (keepLast (min (max 3 1) 3)
      ([numberAt 40 9, numberAt 46 1] ++ [numberAt 48 2])) = [double 9, double 1, double 2] := by
    decide
  rw [hnumbers] at haggregates
  have hgreatest := ((haggregates.max rfl).2 (by simp)).2 (double 9) List.mem_cons_self
  exact absurd hgreatest (by decide)

end MangOH.DataHub
