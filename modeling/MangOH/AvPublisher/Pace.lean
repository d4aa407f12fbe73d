import Mathlib.Tactic.SplitIfs
import MangOH.AvPublisher.Handler
import MangOH.Lib.Machine

/-! How often the publisher pushes, and which readings it records. -/
namespace MangOH.AvPublisher
open Lib

variable {V : Type} {tick : Tick V} {s : State V} {it : Item V} {i : Nat} {last : UInt64}

/-- The reading differs from the recorded value by more than the item's threshold. -/
def Exceeds (tick : Tick V) (i : Nat) (it : Item V) : Prop :=
  (tick.read i).1 = .ok ∧ it.thresholdCheck (tick.read i).2 it.lastValueRecorded = true

/-- The first loop records the item. -/
def Samples (tick : Tick V) (i : Nat) (it : Item V) : Prop :=
  (tick.read i).1 = .ok ∧
    (it.lastTimeRecorded = 0 ∨ it.thresholdCheck (tick.read i).2 it.lastValueRecorded = true) ∧
    tick.record i = .ok

/-- When the item was last read, this tick included. -/
def readTime (tick : Tick V) (i : Nat) (it : Item V) : UInt64 :=
  if (tick.read i).1 = .ok then tick.now else it.lastTimeRead

/-- The second loop records the item. -/
def Refreshes (tick : Tick V) (i : Nat) (it : Item V) : Prop :=
  tick.now - it.lastTimeRecorded > timeToStale * 1000 ∧
    readTime tick i it > it.lastTimeRecorded ∧ tick.recordStale i = .ok

/-- There is something to publish. -/
def Due (tick : Tick V) (s : State V) : Prop :=
  s.deferredPublish = true ∨ ∃ i it, s.items[i]? = some it ∧ (Samples tick i it ∨
    tick.now - it.lastTimeRecorded > maxIntervalBetweenPublish * 1000 ∧
      readTime tick i it > s.lastTimePublished)

@[simp] theorem sample_lastTimeRecorded :
    (sample tick last i it).item.lastTimeRecorded = it.lastTimeRecorded := by
  simp only [sample]
  split_ifs <;> rfl

@[simp] theorem sample_lastTimeRead :
    (sample tick last i it).item.lastTimeRead = readTime tick i it := by
  simp only [sample, readTime]
  split_ifs <;> rfl

theorem sample_recorded : (sample tick last i it).recorded = true ↔ Samples tick i it := by
  simp only [sample, Samples]
  split_ifs <;> simp_all

theorem sample_publish : (sample tick last i it).publish = true ↔ Samples tick i it ∨
    tick.now - it.lastTimeRecorded > maxIntervalBetweenPublish * 1000 ∧
      readTime tick i it > last := by
  have hrecorded : (sample tick last i it).recorded = true ↔ Samples tick i it := sample_recorded
  have htime : (sample tick last i it).item.lastTimeRecorded = it.lastTimeRecorded :=
    sample_lastTimeRecorded
  have hread : (sample tick last i it).item.lastTimeRead = readTime tick i it :=
    sample_lastTimeRead
  rw [← hrecorded, ← htime, ← hread]
  simp only [sample, Bool.or_eq_true, Bool.and_eq_true, decide_eq_true_eq]

/-- What both loops make of an item. -/
def refresh (tick : Tick V) (last : UInt64) (i : Nat) (it : Item V) : Handled V :=
  recordStale tick i (sample tick last i it).item

theorem refresh_recorded : (refresh tick last i it).recorded = true ↔ Refreshes tick i it := by
  simp only [refresh, recordStale, Refreshes, sample_lastTimeRecorded, sample_lastTimeRead]
  split_ifs <;> simp_all [and_assoc]

@[simp] theorem refresh_lastTimeRead :
    (refresh tick last i it).item.lastTimeRead = readTime tick i it := by
  simp only [refresh, recordStale]
  split_ifs <;> simp only [sample_lastTimeRead]

theorem refresh_lastTimeRecorded (h : Refreshes tick i it) :
    (refresh tick last i it).item.lastTimeRecorded = readTime tick i it := by
  have hrecorded : (refresh tick last i it).recorded = true := refresh_recorded.mpr h
  simp only [refresh, recordStale] at hrecorded ⊢
  split_ifs at hrecorded ⊢
  simp only [sample_lastTimeRead]

theorem refresh_lastTimeRecorded_of_not (h : ¬ Refreshes tick i it) :
    (refresh tick last i it).item.lastTimeRecorded = it.lastTimeRecorded := by
  have hrecorded : ¬ (refresh tick last i it).recorded = true := mt refresh_recorded.mp h
  simp only [refresh, recordStale] at hrecorded ⊢
  split_ifs at hrecorded ⊢
  · exact absurd rfl hrecorded
  · simp only [sample_lastTimeRecorded]

theorem due_iff : ((s.items.mapIdx (sample tick s.lastTimePublished)).any (·.publish) ||
    s.deferredPublish) = true ↔ Due tick s := by
  rw [Bool.or_eq_true, or_comm, List.any_eq_true, Due]
  refine or_congr_right ⟨?_, ?_⟩
  · rintro ⟨o, ho, hpublish⟩
    obtain ⟨i, hi⟩ := List.mem_iff_getElem?.mp ho
    rw [List.getElem?_mapIdx] at hi
    obtain ⟨it, hit, rfl⟩ := Option.map_eq_some_iff.mp hi
    exact ⟨i, it, hit, sample_publish.mp hpublish⟩
  · rintro ⟨i, it, hit, hpublish⟩
    refine ⟨sample tick s.lastTimePublished i it, List.mem_iff_getElem?.mpr ⟨i, ?_⟩,
      sample_publish.mpr hpublish⟩
    rw [List.getElem?_mapIdx, hit, Option.map_some]

/-- The items as a loop's body leaves them, and the items that it recorded. -/
def handled (f : Nat → Item V → Handled V) (items : List (Item V)) : List (Item V) :=
  (items.mapIdx f).map (·.item)

def flags (f : Nat → Item V → Handled V) (items : List (Item V)) : List Bool :=
  (items.mapIdx f).map (·.recorded)

theorem handled_getElem? (f : Nat → Item V → Handled V) (items : List (Item V)) (i : Nat) :
    (handled f items)[i]? = items[i]?.map fun it => (f i it).item := by
  rw [handled, List.getElem?_map, List.getElem?_mapIdx, Option.map_map]
  rfl

theorem flags_getElem? (f : Nat → Item V → Handled V) (items : List (Item V)) (i : Nat) :
    (flags f items)[i]? = items[i]?.map fun it => (f i it).recorded := by
  rw [flags, List.getElem?_map, List.getElem?_mapIdx, Option.map_map]
  rfl

theorem mapIdx_recordStale (tick : Tick V) (last : UInt64) (items : List (Item V)) :
    (handled (sample tick last) items).mapIdx (recordStale tick) =
      items.mapIdx (refresh tick last) := by
  refine List.ext_getElem? fun i => ?_
  rw [List.getElem?_mapIdx, handled_getElem?, List.getElem?_mapIdx, Option.map_map]
  rfl

/-- What a run of the handler does. -/
inductive Handles (tick : Tick V) (s : State V) : State V × Report → Prop
  | quiet (hdue : ¬ Due tick s) :
    Handles tick s ({ s with items := handled (sample tick s.lastTimePublished) s.items },
      ⟨flags (sample tick s.lastTimePublished) s.items, [], false⟩)
  | deferred (hdue : Due tick s)
      (hearly : tick.now - s.lastTimePublished < minIntervalBetweenPublish) :
    Handles tick s ({ s with
        items := handled (sample tick s.lastTimePublished) s.items, deferredPublish := true },
      ⟨flags (sample tick s.lastTimePublished) s.items, [], false⟩)
  | failed (hdue : Due tick s)
      (hlate : ¬ tick.now - s.lastTimePublished < minIntervalBetweenPublish)
      (hpush : tick.push ≠ .ok) :
    Handles tick s ({ s with items := handled (refresh tick s.lastTimePublished) s.items },
      ⟨flags (sample tick s.lastTimePublished) s.items,
        flags (refresh tick s.lastTimePublished) s.items, false⟩)
  | pushed (hdue : Due tick s)
      (hlate : ¬ tick.now - s.lastTimePublished < minIntervalBetweenPublish)
      (hpush : tick.push = .ok) :
    Handles tick s ({ s with
        items := handled (refresh tick s.lastTimePublished) s.items, deferredPublish := false,
        lastTimePublished := tick.now },
      ⟨flags (sample tick s.lastTimePublished) s.items,
        flags (refresh tick s.lastTimePublished) s.items, true⟩)

theorem handler_handles (tick : Tick V) (s : State V) :
    Handles tick s (sampleTimerHandler tick s) := by
  have hstale := mapIdx_recordStale tick s.lastTimePublished s.items
  rw [handled] at hstale
  simp only [sampleTimerHandler, hstale]
  split
  · rename_i hdue
    rw [due_iff] at hdue
    split
    · exact .deferred hdue ‹_›
    split
    · exact .failed hdue ‹_› ‹_›
    · exact .pushed hdue ‹_› (not_not.mp ‹_›)
  · rename_i hdue
    rw [due_iff] at hdue
    exact .quiet hdue

/-- The publisher, the clock at its last tick, the times of its pushes with the latest first, and
for each item the time of the reading that was recorded last. -/
structure Timeline (V : Type) where
  state : State V
  clock : UInt64
  pushes : List UInt64
  recordedAt : Nat → Option UInt64

def Timeline.after (t : Timeline V) (tick : Tick V) : Timeline V :=
  let (s, report) := sampleTimerHandler tick t.state
  { state := s
    clock := tick.now
    pushes := if report.pushed then tick.now :: t.pushes else t.pushes
    recordedAt := fun i =>
      if report.stale[i]? = some true then s.items[i]?.map (·.lastTimeRead)
      else if report.sampled[i]? = some true then some tick.now
      else t.recordedAt i }

/-- Ticks at times that do not go back, from the first one on. -/
def publisher (V : Type) : Machine (Timeline V) (Tick V) where
  Init t := t.state.deferredPublish = false ∧ t.state.lastTimePublished = 0 ∧
    (∀ it ∈ t.state.items, it.lastTimeRecorded = 0 ∧ it.lastTimeRead = 0) ∧ t.clock = 0 ∧
    t.pushes = [] ∧ t.recordedAt = fun _ => none
  Step t tick u := t.clock ≤ tick.now ∧ u = t.after tick

/-- Some tick of these pushes. -/
def PushedIn : State V → List (Tick V) → Prop
  | _, [] => False
  | s, tick :: ticks => (sampleTimerHandler tick s).2.pushed = true ∨
    PushedIn (sampleTimerHandler tick s).1 ticks

/-- Two pushes are at least the minimum interval apart. -/
def Timeline.Apart (t : Timeline V) : Prop :=
  t.pushes.Pairwise fun later earlier =>
    earlier.toNat + minIntervalBetweenPublish.toNat * 1000 ≤ later.toNat

/-- A change that exceeds its threshold is pushed by any later tick that is the minimum interval
behind the push before it, where recording and pushing succeed. -/
def Timeline.InTime (t : Timeline V) : Prop :=
  ∀ change later i it tick, t.state.items[i]? = some it → Exceeds change i it →
    change.record i = .ok → (∀ k ∈ change :: later, k.push = .ok) → tick ∈ change :: later →
    (t.pushes.headD 0).toNat + minIntervalBetweenPublish.toNat * 1000 ≤ tick.now.toNat →
    PushedIn t.state (change :: later)

/-- The next tick records only items that were never recorded, exceed their thresholds or are
stale. -/
def Timeline.Sparing (t : Timeline V) (tick : Tick V) : Prop :=
  ∀ i it, t.state.items[i]? = some it →
    (sampleTimerHandler tick t.state).2.sampled[i]? = some true ∨
      (sampleTimerHandler tick t.state).2.stale[i]? = some true →
    t.recordedAt i = none ∨ Exceeds tick i it ∨
      ∃ time, t.recordedAt i = some time ∧ time.toNat + timeToStale.toNat * 1000 ≤ tick.now.toNat

/-- No publish is due from 10 ms to 10 s after the last push, and what the first loop records gets
its time from the second loop of the same tick. -/
structure OnPace (t : Timeline V) (tick : Tick V) : Prop where
  spaced : t.state.lastTimePublished ≠ 0 → Due tick t.state →
    tick.now - t.state.lastTimePublished < minIntervalBetweenPublish ∨
      minIntervalBetweenPublish * 1000 ≤ tick.now - t.state.lastTimePublished
  timed : ∀ i it, t.state.items[i]? = some it → Samples tick i it →
    minIntervalBetweenPublish ≤ tick.now - t.state.lastTimePublished ∧
      tick.now - it.lastTimeRecorded > timeToStale * 1000 ∧ tick.recordStale i = .ok

/-- The item's own times do not lie ahead of the clock, and tell when it was recorded. -/
structure Item.Faithful (it : Item V) (clock : UInt64) (recordedAt : Option UInt64) : Prop where
  time : it.lastTimeRecorded = recordedAt.getD 0
  nonzero : recordedAt ≠ some 0
  recorded_le : it.lastTimeRecorded ≤ clock
  read_le : it.lastTimeRead ≤ clock

/-- The publisher's own times are those of its pushes and recordings. -/
structure Timeline.Faithful (t : Timeline V) : Prop where
  published : t.pushes.headD 0 = t.state.lastTimePublished
  published_le : t.state.lastTimePublished ≤ t.clock
  positive : ∀ time ∈ t.pushes, time ≠ 0
  apart : t.Apart
  items : ∀ i (it : Item V), t.state.items[i]? = some it → it.Faithful t.clock (t.recordedAt i)

variable {t u : Timeline V} {a b k : UInt64} {ticks : List (Tick V)}

theorem lt_sub_iff (h : a ≤ b) : k < b - a ↔ a.toNat + k.toNat < b.toNat := by
  have hle := UInt64.le_iff_toNat_le.mp h
  rw [UInt64.lt_iff_toNat_lt, UInt64.toNat_sub_of_le _ _ h]
  omega

theorem le_sub_iff (h : a ≤ b) : k ≤ b - a ↔ a.toNat + k.toNat ≤ b.toNat := by
  have hle := UInt64.le_iff_toNat_le.mp h
  rw [UInt64.le_iff_toNat_le, UInt64.toNat_sub_of_le _ _ h]
  omega

theorem minInterval_toNat :
    (minIntervalBetweenPublish * 1000).toNat = minIntervalBetweenPublish.toNat * 1000 := by
  decide

theorem timeToStale_toNat : (timeToStale * 1000).toNat = timeToStale.toNat * 1000 := by decide

theorem Samples.due (hit : s.items[i]? = some it) (h : Samples tick i it) : Due tick s :=
  .inr ⟨i, it, hit, .inl h⟩

theorem Samples.readTime (h : Samples tick i it) : readTime tick i it = tick.now := if_pos h.1

/-- What the first loop records, the second loop records again. -/
theorem OnPace.refreshes (h : OnPace t tick) (hit : t.state.items[i]? = some it)
    (hle : it.lastTimeRecorded ≤ tick.now) (hs : Samples tick i it) : Refreshes tick i it := by
  obtain ⟨-, hstale, hrecord⟩ := h.timed i it hit hs
  refine ⟨hstale, ?_, hrecord⟩
  rw [hs.readTime]
  have hlt := (lt_sub_iff hle).mp hstale
  exact UInt64.lt_iff_toNat_lt.mpr (by omega)

section Items
variable {clock : UInt64} {recordedAt : Option UInt64}

theorem Item.Faithful.readTime_le (h : it.Faithful clock recordedAt) (hclock : clock ≤ tick.now) :
    readTime tick i it ≤ tick.now := by
  unfold AvPublisher.readTime
  split
  · exact UInt64.le_refl _
  · exact UInt64.le_trans h.read_le hclock

theorem Item.Faithful.sample (h : it.Faithful clock recordedAt) (hclock : clock ≤ tick.now) :
    (sample tick last i it).item.Faithful tick.now recordedAt where
  time := sample_lastTimeRecorded.trans h.time
  nonzero := h.nonzero
  recorded_le := by
    rw [sample_lastTimeRecorded]
    exact UInt64.le_trans h.recorded_le hclock
  read_le := by
    rw [sample_lastTimeRead]
    exact h.readTime_le hclock

theorem Item.Faithful.refresh (h : it.Faithful clock recordedAt) (hclock : clock ≤ tick.now)
    (hr : Refreshes tick i it) :
    (refresh tick last i it).item.Faithful tick.now (some (readTime tick i it)) where
  time := refresh_lastTimeRecorded hr
  nonzero := by
    intro hzero
    have hlt := hr.2.1
    rw [Option.some.inj hzero] at hlt
    exact absurd (UInt64.lt_iff_toNat_lt.mp hlt) (Nat.not_lt_zero _)
  recorded_le := by
    rw [refresh_lastTimeRecorded hr]
    exact h.readTime_le hclock
  read_le := by
    rw [refresh_lastTimeRead]
    exact h.readTime_le hclock

theorem Item.Faithful.keep (h : it.Faithful clock recordedAt) (hclock : clock ≤ tick.now)
    (hr : ¬ Refreshes tick i it) :
    (AvPublisher.refresh tick last i it).item.Faithful tick.now recordedAt where
  time := (refresh_lastTimeRecorded_of_not hr).trans h.time
  nonzero := h.nonzero
  recorded_le := by
    rw [refresh_lastTimeRecorded_of_not hr]
    exact UInt64.le_trans h.recorded_le hclock
  read_le := by
    rw [refresh_lastTimeRead]
    exact h.readTime_le hclock

end Items

theorem Timeline.Faithful.sparing (h : t.Faithful) (hclock : t.clock ≤ tick.now) :
    t.Sparing tick := by
  intro i it hit hflag
  obtain ⟨htime, hzero, hle, -⟩ := h.items i it hit
  have hrecords : Samples tick i it ∨ Refreshes tick i it := by
    have hhandles := handler_handles tick t.state
    generalize sampleTimerHandler tick t.state = r at hhandles hflag
    cases hhandles with
    | quiet | deferred =>
      simp only [flags_getElem?, hit, Option.map_some, Option.some.injEq, sample_recorded,
        List.getElem?_nil, reduceCtorEq, or_false] at hflag
      exact .inl hflag
    | failed | pushed =>
      simpa only [flags_getElem?, hit, Option.map_some, Option.some.injEq, sample_recorded,
        refresh_recorded] using hflag
  have hnever : it.lastTimeRecorded = 0 → t.recordedAt i = none := by
    intro hltr
    cases hat : t.recordedAt i with
    | none => rfl
    | some time =>
      rw [hat, hltr, Option.getD_some] at htime
      exact absurd (hat.trans (congrArg some htime.symm)) hzero
  obtain ⟨hread, hltr | hthreshold, -⟩ | ⟨hstale, -⟩ := hrecords
  · exact .inl (hnever hltr)
  · exact .inr (.inl ⟨hread, hthreshold⟩)
  · cases hat : t.recordedAt i with
    | none => exact .inl rfl
    | some time =>
      rw [hat, Option.getD_some] at htime
      have hlt := (lt_sub_iff (UInt64.le_trans hle hclock)).mp hstale
      refine .inr (.inr ⟨time, rfl, ?_⟩)
      rw [timeToStale_toNat, htime] at hlt
      exact Nat.le_of_lt hlt

/-- Where the second loop does not run, the first has recorded nothing. -/
theorem OnPace.items_sampled (h : OnPace t tick) (hf : t.Faithful) (hclock : t.clock ≤ tick.now)
    (hnot : ¬ Due tick t.state ∨
      tick.now - t.state.lastTimePublished < minIntervalBetweenPublish) {it' : Item V}
    (hit' : (handled (sample tick t.state.lastTimePublished) t.state.items)[i]? = some it') :
    ¬ (flags (sample tick t.state.lastTimePublished) t.state.items)[i]? = some true ∧
      it'.Faithful tick.now (t.recordedAt i) := by
  rw [handled_getElem?] at hit'
  obtain ⟨it, hit, rfl⟩ := Option.map_eq_some_iff.mp hit'
  refine ⟨?_, (hf.items i it hit).sample hclock⟩
  rw [flags_getElem?, hit, Option.map_some, Option.some.injEq, sample_recorded]
  intro hs
  rcases hnot with hnot | hearly
  · exact hnot (hs.due hit)
  · have hlate := (h.timed i it hit hs).1
    exact absurd (UInt64.lt_iff_toNat_lt.mp hearly)
      (Nat.not_lt.mpr (UInt64.le_iff_toNat_le.mp hlate))

/-- Where it runs, it gives the time to what the first one has recorded. -/
theorem OnPace.items_refreshed (h : OnPace t tick) (hf : t.Faithful) (hclock : t.clock ≤ tick.now)
    {it' : Item V}
    (hit' : (handled (refresh tick t.state.lastTimePublished) t.state.items)[i]? = some it') :
    it'.Faithful tick.now
      (if (flags (refresh tick t.state.lastTimePublished) t.state.items)[i]? = some true then
        some it'.lastTimeRead
      else if (flags (sample tick t.state.lastTimePublished) t.state.items)[i]? = some true then
        some tick.now
      else t.recordedAt i) := by
  rw [handled_getElem?] at hit'
  obtain ⟨it, hit, rfl⟩ := Option.map_eq_some_iff.mp hit'
  have hitem := hf.items i it hit
  have hrflag : (flags (refresh tick t.state.lastTimePublished) t.state.items)[i]? = some true ↔
      Refreshes tick i it := by
    rw [flags_getElem?, hit, Option.map_some, Option.some.injEq, refresh_recorded]
  have hsflag : (flags (sample tick t.state.lastTimePublished) t.state.items)[i]? = some true ↔
      Samples tick i it := by
    rw [flags_getElem?, hit, Option.map_some, Option.some.injEq, sample_recorded]
  by_cases hr : Refreshes tick i it
  · rw [if_pos (hrflag.mpr hr), refresh_lastTimeRead]
    exact hitem.refresh hclock hr
  · have hs : ¬ Samples tick i it := fun hs =>
      hr (h.refreshes hit (UInt64.le_trans hitem.recorded_le hclock) hs)
    rw [if_neg (mt hrflag.mp hr), if_neg (mt hsflag.mp hs)]
    exact hitem.keep hclock hr

theorem ne_zero_of_le (h : a.toNat + minIntervalBetweenPublish.toNat ≤ b.toNat) : b ≠ 0 := by
  rintro rfl
  exact absurd h (by simp [minIntervalBetweenPublish])

theorem OnPace.apart (h : OnPace t tick) (hf : t.Faithful) (hdue : Due tick t.state)
    (hlate : ¬ tick.now - t.state.lastTimePublished < minIntervalBetweenPublish)
    (hclock : t.clock ≤ tick.now) : ∀ time ∈ t.pushes,
      time.toNat + minIntervalBetweenPublish.toNat * 1000 ≤ tick.now.toNat := by
  have hhead := hf.published
  have hpositive := hf.positive
  have hapart : t.pushes.Pairwise _ := hf.apart
  cases hpushes : t.pushes with
  | nil => simp
  | cons first rest =>
    rw [hpushes] at hhead hpositive hapart
    rw [List.headD_cons] at hhead
    have hfar := (h.spaced (hhead ▸ hpositive first List.mem_cons_self) hdue).resolve_left hlate
    rw [le_sub_iff (UInt64.le_trans hf.published_le hclock), ← hhead, minInterval_toNat] at hfar
    refine List.forall_mem_cons.mpr ⟨hfar, fun time htime => ?_⟩
    have hlt := (List.pairwise_cons.mp hapart).1 time htime
    exact Nat.le_trans hlt (Nat.le_trans (Nat.le_add_right _ _) hfar)

theorem Timeline.Faithful.after (h : t.Faithful) (hok : OnPace t tick)
    (hclock : t.clock ≤ tick.now) : (t.after tick).Faithful := by
  have hle := UInt64.le_trans h.published_le hclock
  have hhandles := handler_handles tick t.state
  unfold Timeline.after
  generalize sampleTimerHandler tick t.state = r at hhandles ⊢
  cases hhandles with
  | quiet hdue =>
    refine ⟨h.published, hle, h.positive, h.apart, fun i it' hit' => ?_⟩
    obtain ⟨hflag, hitem⟩ := hok.items_sampled h hclock (.inl hdue) hit'
    simpa only [List.getElem?_nil, reduceCtorEq, if_false, if_neg hflag] using hitem
  | deferred hdue hearly =>
    refine ⟨h.published, hle, h.positive, h.apart, fun i it' hit' => ?_⟩
    obtain ⟨hflag, hitem⟩ := hok.items_sampled h hclock (.inr hearly) hit'
    simpa only [List.getElem?_nil, reduceCtorEq, if_false, if_neg hflag] using hitem
  | failed hdue hlate hpush =>
    refine ⟨h.published, hle, h.positive, h.apart, fun i it' hit' => ?_⟩
    have hitem := hok.items_refreshed h hclock hit'
    simpa only [hit', Option.map_some] using hitem
  | pushed hdue hlate hpush =>
    have hlate' := (le_sub_iff hle).mp (UInt64.not_lt.mp hlate)
    refine ⟨rfl, UInt64.le_refl _, ?_, ?_, fun i it' hit' => ?_⟩
    · exact List.forall_mem_cons.mpr ⟨ne_zero_of_le hlate', h.positive⟩
    · exact List.pairwise_cons.mpr ⟨hok.apart h hdue hlate hclock, h.apart⟩
    · have hitem := hok.items_refreshed h hclock hit'
      simpa only [hit', Option.map_some] using hitem

/-- A publish that is due is put off until a tick comes late enough. -/
theorem pushedIn_of_due {first : Tick V} (hdue : Due first s)
    (hpush : ∀ k ∈ first :: ticks, k.push = .ok) (htick : tick ∈ first :: ticks)
    (hlate : ¬ tick.now - s.lastTimePublished < minIntervalBetweenPublish) :
    PushedIn s (first :: ticks) := by
  induction ticks generalizing s first with
  | nil =>
    obtain rfl : tick = first := List.mem_singleton.mp htick
    have hhandles := handler_handles tick s
    unfold PushedIn
    generalize sampleTimerHandler tick s = r at hhandles ⊢
    cases hhandles with
    | quiet hnot => exact absurd hdue hnot
    | deferred _ hearly => exact absurd hearly hlate
    | failed _ _ hfailed => exact absurd (hpush tick List.mem_cons_self) hfailed
    | pushed => exact .inl rfl
  | cons second ticks ih =>
    have hhandles := handler_handles first s
    unfold PushedIn
    generalize sampleTimerHandler first s = r at hhandles ⊢
    cases hhandles with
    | quiet hnot => exact absurd hdue hnot
    | deferred _ hearly =>
      refine .inr (ih (.inl rfl) (fun k hk => hpush k (List.mem_cons_of_mem _ hk)) ?_ hlate)
      rcases List.mem_cons.mp htick with rfl | hrest
      · exact absurd hearly hlate
      · exact hrest
    | failed _ _ hfailed => exact absurd (hpush first List.mem_cons_self) hfailed
    | pushed => exact .inl rfl

theorem Timeline.Faithful.inTime (h : t.Faithful) : t.InTime := by
  intro change later i it tick hit hexceeds hrecord hpush htick hfar
  rw [h.published] at hfar
  have hle : t.state.lastTimePublished ≤ tick.now :=
    UInt64.le_iff_toNat_le.mpr (Nat.le_trans (Nat.le_add_right _ _) hfar)
  have hdue : Due change t.state :=
    Samples.due hit ⟨hexceeds.1, .inr hexceeds.2, hrecord⟩
  refine pushedIn_of_due hdue hpush htick (UInt64.not_lt.mpr ((le_sub_iff hle).mpr ?_))
  exact Nat.le_trans (Nat.add_le_add_left (Nat.le_mul_of_pos_right _ (by decide)) _) hfar

theorem faithful_init (h : (publisher V).Init t) : t.Faithful := by
  obtain ⟨-, hlast, hitems, hclock, hpushes, hrecorded⟩ := h
  refine ⟨by rw [hpushes, hlast]; rfl, by rw [hlast, hclock]; exact UInt64.le_refl _,
    by simp [hpushes], by simp [Timeline.Apart, hpushes], fun i it hit => ?_⟩
  obtain ⟨htime, hread⟩ := hitems it (List.mem_of_getElem? hit)
  rw [hrecorded, hclock]
  exact ⟨htime, by simp, by rw [htime]; exact UInt64.le_refl _,
    by rw [hread]; exact UInt64.le_refl _⟩

/-- Along every run whose ticks are on pace, pushes are apart, changes are pushed in time, and
nothing is recorded without need. -/
theorem reached_paced (h : (publisher V).Reached OnPace t) :
    t.Apart ∧ t.InTime ∧ ∀ tick, t.clock ≤ tick.now → t.Sparing tick := by
  have hfaithful : t.Faithful := by
    refine h.invariant Timeline.Faithful (fun s hs => faithful_init hs) ?_
    rintro s tick u hs hok ⟨hclock, rfl⟩
    exact hs.after hok hclock
  exact ⟨hfaithful.apart, hfaithful.inTime, fun tick hclock => hfaithful.sparing hclock⟩

/-- The relay's publisher before its first tick. -/
def relayStart : Timeline Bool := ⟨⟨channels, false, 0⟩, 0, [], fun _ => none⟩

/-- A tick at which everything succeeds. -/
def smoothTick (now : UInt64) : Tick Bool :=
  ⟨now, fun _ => (.ok, true), fun _ => .ok, fun _ => .ok, .ok⟩

/-- A tick at which the record is full when the stale items are recorded. -/
def fullTick (now : UInt64) : Tick Bool := { smoothTick now with recordStale := fun _ => .overflow }

theorem relayStart_init : (publisher Bool).Init relayStart := by
  refine ⟨rfl, rfl, ?_, rfl, rfl, rfl⟩
  simp [relayStart, channels]

theorem onPace_relayStart : OnPace relayStart (smoothTick 1000000) := by
  refine ⟨fun hlast => absurd rfl hlast, fun i it hit _ => ⟨by decide, ?_, rfl⟩⟩
  have hmem := List.mem_of_getElem? hit
  simp only [relayStart, channels, List.mem_replicate] at hmem
  rw [hmem.2]
  decide

theorem reached_paced_relay :
    ((relayStart.after (smoothTick 1000000)).pushes = [1000000]) ∧
      (relayStart.after (smoothTick 1000000)).Apart := by
  have hreached : (publisher Bool).Reached OnPace (relayStart.after (smoothTick 1000000)) :=
    .step (.init relayStart_init) onPace_relayStart ⟨by decide, rfl⟩
  exact ⟨by decide +kernel, (reached_paced hreached).1⟩

/-- With the stale items not recorded at the first tick, two pushes are a second apart. -/
theorem reached_paced_fails :
    ¬ ∀ t : Timeline Bool, (publisher Bool).Reached (fun _ _ => True) t →
      t.Apart ∧ t.InTime ∧ ∀ tick, t.clock ≤ tick.now → t.Sparing tick := by
  intro h
  have hreached : (publisher Bool).Reached (fun _ _ => True)
      ((relayStart.after (fullTick 1000000)).after (fullTick 1001000)) :=
    .step (.step (.init relayStart_init) trivial ⟨by decide, rfl⟩) trivial
      ⟨by decide +kernel, rfl⟩
  have hpushes : ((relayStart.after (fullTick 1000000)).after (fullTick 1001000)).pushes =
      [1001000, 1000000] := by decide +kernel
  have hapart := (h _ hreached).1
  rw [Timeline.Apart, hpushes] at hapart
  exact absurd hapart (by decide)

end MangOH.AvPublisher
