import Mathlib.Data.List.Basic

/-! The sampling timer of the publisher that sends the relay's readings to the cloud. -/
namespace MangOH.AvPublisher

/-- What the calls of the cloud service return. -/
inductive Result
  | ok
  | overflow
  | fault
deriving DecidableEq, Repr

/-- Seconds. -/
def maxIntervalBetweenPublish : UInt64 := 120
def minIntervalBetweenPublish : UInt64 := 10
def timeToStale : UInt64 := 60

/-- A value to read and publish; times are in milliseconds. -/
structure Item (V : Type) where
  thresholdCheck : V → V → Bool
  lastValueRead : V
  lastValueRecorded : V
  lastTimeRecorded : UInt64
  lastTimeRead : UInt64

/-- The static variables. -/
structure State (V : Type) where
  items : List (Item V)
  deferredPublish : Bool
  lastTimePublished : UInt64

/-- What the handler meets in one run: the time, what each item's `read` returns and leaves behind,
and the results of the first loop's and the second loop's calls of `record` and of the push. -/
structure Tick (V : Type) where
  now : UInt64
  read : Nat → Result × V
  record : Nat → Result
  recordStale : Nat → Result
  push : Result

variable {V : Type}

/-- What a loop makes of an item, whether it recorded it, and whether it calls for a publish. -/
structure Handled (V : Type) where
  item : Item V
  recorded : Bool
  publish : Bool

/-- The first loop's body. -/
def sample (tick : Tick V) (lastTimePublished : UInt64) (i : Nat) (it : Item V) : Handled V :=
  let (r, value) := tick.read i
  let it := { it with lastValueRead := value }
  let it := if r = .ok then { it with lastTimeRead := tick.now } else it
  let recorded := r = .ok &&
    (it.lastTimeRecorded = 0 || it.thresholdCheck it.lastValueRead it.lastValueRecorded) &&
    tick.record i = .ok
  let it := if recorded then { it with lastValueRecorded := it.lastValueRead } else it
  let forced := tick.now - it.lastTimeRecorded > maxIntervalBetweenPublish * 1000 &&
    it.lastTimeRead > lastTimePublished
  ⟨it, recorded, recorded || forced⟩

/-- The second loop's body. -/
def recordStale (tick : Tick V) (i : Nat) (it : Item V) : Handled V :=
  if tick.now - it.lastTimeRecorded > timeToStale * 1000 &&
      it.lastTimeRead > it.lastTimeRecorded && tick.recordStale i = .ok then
    ⟨{ it with lastValueRecorded := it.lastValueRead, lastTimeRecorded := it.lastTimeRead }, true,
      false⟩
  else ⟨it, false, false⟩

/-- What a run of the handler did: the items that each loop recorded, and whether it pushed. -/
structure Report where
  sampled : List Bool
  stale : List Bool
  pushed : Bool
deriving DecidableEq, Repr

def sampleTimerHandler (tick : Tick V) (s : State V) : State V × Report :=
  let sampled := s.items.mapIdx (sample tick s.lastTimePublished)
  let items := sampled.map (·.item)
  let flags := sampled.map (·.recorded)
  if sampled.any (·.publish) || s.deferredPublish then
    if tick.now - s.lastTimePublished < minIntervalBetweenPublish then
      ({ s with items := items, deferredPublish := true }, ⟨flags, [], false⟩)
    else
      let stale := items.mapIdx (recordStale tick)
      let s := { s with items := stale.map (·.item) }
      if tick.push ≠ .ok then (s, ⟨flags, stale.map (·.recorded), false⟩)
      else ({ s with deferredPublish := false, lastTimePublished := tick.now },
        ⟨flags, stale.map (·.recorded), true⟩)
  else ({ s with items := items }, ⟨flags, [], false⟩)

/-- `Channel1Threshold` to `Channel4Threshold`. -/
def channelThreshold (recordedValue readValue : Bool) : Bool :=
  ((recordedValue.toNat : Int) - readValue.toNat).natAbs > 200

/-- The four channels of the relay, before the first reading. -/
def channels : List (Item Bool) := List.replicate 4 ⟨channelThreshold, false, false, 0, 0⟩

end MangOH.AvPublisher
