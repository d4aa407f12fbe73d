import MangOH.PeriodicSensor.Interval

/-! The handlers of the periodic sensor, and when its timer runs. -/
namespace MangOH.PeriodicSensor

open DataHub (Double)

/-- A repeating timer, with the interval that it was last given. -/
structure Timer where
  isRunning : Bool := false
  interval : Option Interval := none
deriving DecidableEq

/-- `Sensor_t`. `samples` counts the calls of `sampleFunc`. -/
structure Sensor where
  isEnabled : Bool
  period : Double
  timer : Timer
  samples : Nat := 0
deriving DecidableEq

/-- `psensor_Create` -/
def create : Sensor where
  isEnabled := false
  period := .zero
  timer := {}

namespace Sensor

def sampleFunc (sensor : Sensor) : Sensor := { sensor with samples := sensor.samples + 1 }

def timerStart (sensor : Sensor) : Sensor :=
  { sensor with timer := { sensor.timer with isRunning := true } }

def timerStop (sensor : Sensor) : Sensor :=
  { sensor with timer := { sensor.timer with isRunning := false } }

def timerSetInterval (sensor : Sensor) (interval : Interval) : Sensor :=
  { sensor with timer := { sensor.timer with interval := some interval } }

end Sensor

/-- `HandleTimerExpiry`: the timer repeats, so it keeps running. -/
def handleTimerExpiry (sensor : Sensor) : Sensor :=
  if sensor.timer.isRunning then sensor.sampleFunc else sensor

/-- `HandleEnablePush` -/
def handleEnablePush (sensor : Sensor) (enable : Bool) : Sensor :=
  if sensor.isEnabled ≠ enable then
    let sensor := { sensor with isEnabled := enable }
    if enable then
      if isPositive sensor.period then sensor.sampleFunc.timerStart else sensor
    else sensor.timerStop
  else sensor

section Handlers

-- what `(time_t)` makes of a period that is not a number is up to the platform
variable (platformInterval : Interval)

def intervalOf (period : Double) : Interval :=
  if period.isNaN then platformInterval else Interval.ofPeriod period

/-- `HandlePeriodPush` -/
def handlePeriodPush (sensor : Sensor) (period : Double) : Sensor :=
  if !sensor.period.eq period then
    if period.le .zero then { sensor.timerStop with period := .zero }
    else if maxPeriod.lt period then { sensor.timerStop with period := .zero }
    else
      let started := sensor.period.eq .zero && sensor.isEnabled
      let sensor := sensor.timerSetInterval (intervalOf platformInterval period)
      let sensor := if started then sensor.sampleFunc.timerStart else sensor
      { sensor with period := period }
  else sensor

/-- `HandleTriggerPush` -/
def handleTriggerPush (sensor : Sensor) : Sensor :=
  if sensor.isEnabled then sensor.sampleFunc else sensor

/-- What the sensor's handlers are called for. -/
inductive Event
  | enable (value : Bool)
  | period (value : Double)
  | trigger
  | expiry
deriving DecidableEq

def handle (sensor : Sensor) : Event → Sensor
  | .enable value => handleEnablePush sensor value
  | .period value => handlePeriodPush platformInterval sensor value
  | .trigger => handleTriggerPush sensor
  | .expiry => handleTimerExpiry sensor

def run (events : List Event) : Sensor := events.foldl (handle platformInterval) create

end Handlers

/-- What is said of the timer after each push. -/
structure TimerOk (sensor : Sensor) : Prop where
  running_iff : sensor.timer.isRunning = true
    ↔ sensor.isEnabled = true ∧ isPositive sensor.period = true
  period_range : sensor.period = .zero
    ∨ isPositive sensor.period = true ∧ sensor.period.lt twoPow31 = true
  interval_matches : sensor.timer.isRunning = true →
    ∃ interval, sensor.timer.interval = some interval ∧ interval.Matches sensor.period

/-- The invariant: a set period has its interval in the timer, started or not. -/
structure SensorInv (sensor : Sensor) : Prop where
  running_iff : sensor.timer.isRunning = true
    ↔ sensor.isEnabled = true ∧ isPositive sensor.period = true
  period_range : sensor.period = .zero
    ∨ isPositive sensor.period = true ∧ sensor.period.lt twoPow31 = true
  interval_matches : isPositive sensor.period = true →
    ∃ interval, sensor.timer.interval = some interval ∧ interval.Matches sensor.period

namespace SensorInv

variable {sensor : Sensor}

theorem timerOk (h : SensorInv sensor) : TimerOk sensor where
  running_iff := h.running_iff
  period_range := h.period_range
  interval_matches := fun hrun => h.interval_matches (h.running_iff.mp hrun).2

theorem initial : SensorInv create := by
  have hzero : isPositive .zero = false := by decide
  refine ⟨?_, .inl rfl, ?_⟩ <;> simp [create, hzero]

theorem sampled (h : SensorInv sensor) : SensorInv sensor.sampleFunc :=
  ⟨h.running_iff, h.period_range, h.interval_matches⟩

theorem enabled (h : SensorInv sensor) (enable : Bool) :
    SensorInv (handleEnablePush sensor enable) := by
  obtain ⟨hrun, hrange, hmatch⟩ := h
  unfold handleEnablePush
  split
  · cases enable with
    | false => exact ⟨by simp [Sensor.timerStop], hrange, hmatch⟩
    | true =>
      by_cases hpos : isPositive sensor.period = true
      · rw [if_pos rfl, if_pos hpos]
        exact ⟨by simpa [Sensor.timerStart, Sensor.sampleFunc] using hpos, hrange, hmatch⟩
      · rw [if_pos rfl, if_neg hpos]
        exact ⟨by simp [hpos, hrun], hrange, hmatch⟩
  · exact ⟨hrun, hrange, hmatch⟩

/-- Without a period the timer stands still. -/
theorem cleared (enabled : Bool) (timer : Timer) (samples : Nat) :
    SensorInv ⟨enabled, .zero, { timer with isRunning := false }, samples⟩ := by
  have hzero : isPositive .zero = false := by decide
  refine ⟨?_, .inl rfl, ?_⟩ <;> simp [hzero]

variable (platformInterval : Interval)

theorem period_pushed (h : SensorInv sensor) {period : Double} (hnan : period.isNaN = false) :
    SensorInv (handlePeriodPush platformInterval sensor period) := by
  unfold handlePeriodPush
  split
  · split
    · exact cleared _ _ _
    · next hle =>
      split
      · exact cleared _ _ _
      · next hmax =>
        obtain ⟨hpos, hlt, hle'⟩ :=
          accepted_period hnan (by simpa using hle) (by simpa using hmax)
        have hmatch : ∃ interval, some (intervalOf platformInterval period) = some interval
            ∧ interval.Matches period :=
          ⟨_, rfl, by simpa [intervalOf, hnan] using matches_ofPeriod hle'⟩
        have hrun := h.running_iff
        rcases h.period_range with hz | ⟨hold, -⟩
        · -- the timer is started now, unless the sensor is off
          have hzpos : isPositive .zero = false := by decide
          have hzeq : Double.eq .zero .zero = true := by decide
          rw [hz, hzpos] at hrun
          rw [hz, hzeq]
          cases hen : sensor.isEnabled with
          | false => exact ⟨by simpa [Sensor.timerSetInterval, hen] using hrun, .inr ⟨hpos, hlt⟩,
              fun _ => hmatch⟩
          | true => exact ⟨by simp [Sensor.timerSetInterval, Sensor.timerStart, Sensor.sampleFunc,
              hen, hpos], .inr ⟨hpos, hlt⟩, fun _ => hmatch⟩
        · -- it runs already if it is to run
          rw [eq_zero_of_isPositive hold]
          exact ⟨by simpa [Sensor.timerSetInterval, hold, hpos] using hrun, .inr ⟨hpos, hlt⟩,
            fun _ => hmatch⟩
  · exact h

/-- The invariant is kept by every event that is not a period without a number. -/
theorem step (h : SensorInv sensor) {event : Event}
    (hnan : ∀ period, event = .period period → period.isNaN = false) :
    SensorInv (handle platformInterval sensor event) := by
  cases event with
  | enable value => exact h.enabled value
  | period value => exact h.period_pushed platformInterval (hnan value rfl)
  | trigger =>
    show SensorInv (handleTriggerPush sensor)
    unfold handleTriggerPush
    split
    · exact h.sampled
    · exact h
  | expiry =>
    show SensorInv (handleTimerExpiry sensor)
    unfold handleTimerExpiry
    split
    · exact h.sampled
    · exact h

theorem run_of_numbers {events : List Event}
    (hnan : ∀ period, Event.period period ∈ events → period.isNaN = false) :
    SensorInv (run platformInterval events) := by
  unfold run
  induction events using List.reverseRecOn with
  | nil => exact initial
  | append_singleton events event ih =>
    rw [List.foldl_append]
    refine (ih fun period hmem => hnan period (by simp [hmem])).step platformInterval ?_
    rintro period rfl
    exact hnan period (by simp)

end SensorInv

section NaN

variable (platformInterval : Interval)

/-- No comparison holds of a period that is not a number, so it is stored. -/
theorem period_of_nan (sensor : Sensor) {period : Double} (hnan : period.isNaN = true) :
    (handlePeriodPush platformInterval sensor period).period = period := by
  simp [handlePeriodPush, Double.eq, Double.le, Double.lt, hnan]

theorem TimerOk.isNaN_period {sensor : Sensor} (h : TimerOk sensor) :
    sensor.period.isNaN = false := by
  rcases h.period_range with hz | ⟨-, hlt⟩
  · rw [hz]
    rfl
  · by_contra hnan
    simp [Double.lt, hnan] at hlt

/-- After every prefix of the events the timer is as it should be, exactly if no period that is
not a number is pushed. -/
theorem timerOk_iff (events : List Event) :
    (∀ before, before <+: events → TimerOk (run platformInterval before))
      ↔ ∀ period, Event.period period ∈ events → period.isNaN = false := by
  constructor
  · intro hok period hmem
    obtain ⟨before, after, rfl⟩ := List.append_of_mem hmem
    have hbefore : before ++ [.period period] <+: before ++ .period period :: after :=
      ⟨after, by simp⟩
    have hperiod := (hok _ hbefore).isNaN_period
    rw [run, List.foldl_append] at hperiod
    by_contra hnan
    rw [Bool.not_eq_false] at hnan
    have hstored : (List.foldl (handle platformInterval)
        (List.foldl (handle platformInterval) create before) [.period period]).period = period :=
      period_of_nan platformInterval _ hnan
    rw [hstored, hnan] at hperiod
    contradiction
  · rintro hnan before ⟨after, rfl⟩
    refine (SensorInv.run_of_numbers platformInterval fun period hmem => ?_).timerOk
    exact hnan period (List.mem_append_left _ hmem)

end NaN

/-- A trigger that the hub coerces to a number starts the timer without a period. -/
theorem timerOk_fails :
    (run ⟨0, 0⟩ [.enable true, .period .nan]).timer.isRunning = true
      ∧ ¬ TimerOk (run ⟨0, 0⟩ [.enable true, .period .nan]) := by
  refine ⟨by decide, fun h => ?_⟩
  have := h.isNaN_period
  revert this
  decide

end MangOH.PeriodicSensor
