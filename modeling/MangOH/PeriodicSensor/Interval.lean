import Mathlib.Algebra.Order.Field.Basic
import Mathlib.Algebra.Order.Ring.Abs
import Mathlib.Data.Rat.Cast.Order
import Mathlib.Tactic.FieldSimp
import Mathlib.Tactic.Linarith
import Mathlib.Tactic.Positivity
import Mathlib.Tactic.Ring
import MangOH.DataHub.Types
import MangOH.Lib.Rounding

/-! The timer interval that the periodic sensor computes from a period in seconds. -/
namespace MangOH.PeriodicSensor

open DataHub Lib

/-- `(double)(0x7FFFFFFF)`, the longest period that is accepted. -/
def maxPeriod : Double := ⟨0x41dfffffffc00000⟩

/-- 2147483648.0 -/
def twoPow31 : Double := ⟨0x41e0000000000000⟩

/-- `period > 0.0` -/
def isPositive (d : Double) : Bool := Double.lt .zero d

section Parts

variable (d : Double)

def exponent : Nat := max (d.magnitude / 2 ^ 52) 1

/-- The significand with its hidden bit, an integer below `2 ^ 53`. -/
def significand : Nat :=
  if d.magnitude / 2 ^ 52 = 0 then d.magnitude % 2 ^ 52 else d.magnitude % 2 ^ 52 + 2 ^ 52

/-- The number that a positive finite double stands for. -/
def rational : ℚ := significand d * 2 ^ ((exponent d : ℤ) - 1075)

/-- A double below `2 ^ 53` is its significand over two to this power. -/
def scale : Nat := 1075 - exponent d

end Parts

/-- `le_clk_Time_t` -/
structure Interval where
  sec : Int
  usec : Int
deriving DecidableEq

/-- `(time_t)period` and `(period - interval.sec) * 1000000`, both cut to an integer. The
difference and the product are rounded to a double. -/
def Interval.ofPeriod (period : Double) : Interval where
  sec := (significand period / 2 ^ scale period : Nat)
  usec := (roundBits 53 (roundBits 53 (significand period % 2 ^ scale period) * 1000000)
    / 2 ^ scale period : Nat)

def Interval.rational (interval : Interval) : ℚ := interval.sec + interval.usec / 1000000

/-- The interval is the period, to the microsecond that timers count in. -/
structure Interval.Matches (interval : Interval) (period : Double) : Prop where
  usec_nonneg : 0 ≤ interval.usec
  usec_lt : interval.usec < 1000000
  close : |interval.rational - PeriodicSensor.rational period| < 1 / 1000000

section Microseconds

variable {f k : Nat}

theorem excessBits_usec (hf : f < 2 ^ k) : excessBits 53 (f * 1000000) ≤ k - 33 := by
  have hlt : f * 1000000 < 2 ^ (k + 20) := by
    rw [Nat.pow_add]
    omega
  have := excessBits_le (p := 53) (by omega) hlt
  omega

/-- The rounded product stays below a second: rounding up never reaches it. -/
theorem usec_lt (hf : f < 2 ^ k) (hs : f < 2 ^ 53) :
    roundBits 53 (f * 1000000) < 1000000 * 2 ^ k := by
  have herr := roundBits_error (p := 53) (n := f * 1000000)
  have hexc := excessBits_usec hf
  by_cases hk : k ≤ 53
  · have hstep : 2 ^ excessBits 53 (f * 1000000) ≤ 2 ^ 20 :=
      Nat.pow_le_pow_right (by omega) (by omega)
    omega
  · -- a period this small has an empty top half of the second
    have hhalf : f < 2 ^ (k - 1) := hs.trans_le (Nat.pow_le_pow_right (by omega) (by omega))
    have hstep : 2 ^ excessBits 53 (f * 1000000) ≤ 2 ^ k :=
      Nat.pow_le_pow_right (by omega) (by omega)
    have hdouble : 2 ^ k = 2 ^ (k - 1) * 2 := by
      rw [← Nat.pow_succ]
      congr 1
      omega
    omega

theorem usec_close (hf : f < 2 ^ k) :
    f * 1000000 < (roundBits 53 (f * 1000000) / 2 ^ k + 1) * 2 ^ k ∧
      roundBits 53 (f * 1000000) / 2 ^ k * 2 ^ k < f * 1000000 + 2 ^ k := by
  have hpos : 0 < 2 ^ k := Nat.two_pow_pos k
  have hexc := excessBits_usec hf
  have hdvd : 2 ^ excessBits 53 (f * 1000000) ∣ 2 ^ k := Nat.pow_dvd_pow _ (by omega)
  generalize f * 1000000 = n at *
  constructor
  · have hle : n / 2 ^ k * 2 ^ k ≤ roundBits 53 n :=
      le_roundBits (hdvd.mul_left _) (Nat.div_mul_le_self _ _)
    have hq : n / 2 ^ k ≤ roundBits 53 n / 2 ^ k := (Nat.le_div_iff_mul_le hpos).mpr hle
    exact ((Nat.div_lt_iff_lt_mul hpos).mp (Nat.lt_succ_self _)).trans_le
      (Nat.mul_le_mul_right _ (Nat.succ_le_succ hq))
  · have hle : roundBits 53 n ≤ (n + 2 ^ k - 1) / 2 ^ k * 2 ^ k := by
      refine roundBits_le (hdvd.mul_left _) ?_
      have := Nat.div_add_mod (n + 2 ^ k - 1) (2 ^ k)
      have := Nat.mod_lt (n + 2 ^ k - 1) hpos
      rw [Nat.mul_comm]
      omega
    have h1 := Nat.div_mul_le_self (roundBits 53 n) (2 ^ k)
    have h2 := Nat.div_mul_le_self (n + 2 ^ k - 1) (2 ^ k)
    omega

end Microseconds

section Period

variable {period : Double}

theorem significand_lt : significand period < 2 ^ 53 := by
  unfold significand
  split <;> omega

/-- An accepted period has an exponent that makes it a multiple of `2 ^ (-scale)`. -/
theorem rational_eq_div (h : period.magnitude ≤ maxPeriod.magnitude) :
    rational period = significand period / 2 ^ scale period := by
  have hmax : maxPeriod.magnitude = 0x41dfffffffc00000 := by decide
  have he : exponent period ≤ 1075 := by
    unfold exponent
    omega
  have hexp : (exponent period : ℤ) - 1075 = -(scale period : ℤ) := by
    unfold scale
    omega
  rw [rational, hexp, zpow_neg, zpow_natCast, div_eq_mul_inv]

theorem matches_ofPeriod (h : period.magnitude ≤ maxPeriod.magnitude) :
    (Interval.ofPeriod period).Matches period := by
  have hf : significand period % 2 ^ scale period < 2 ^ scale period :=
    Nat.mod_lt _ (Nat.two_pow_pos _)
  have hs : significand period % 2 ^ scale period < 2 ^ 53 :=
    (Nat.mod_le _ _).trans_lt significand_lt
  have hround : roundBits 53 (significand period % 2 ^ scale period)
      = significand period % 2 ^ scale period := roundBits_of_lt (by omega) hs
  have hsum : (significand period : ℚ) = (significand period / 2 ^ scale period : Nat)
      * 2 ^ scale period + (significand period % 2 ^ scale period : Nat) := by
    exact_mod_cast (Nat.div_add_mod' _ _).symm
  have hlt := usec_lt hf hs
  obtain ⟨hlow, hhigh⟩ := usec_close hf
  refine ⟨Int.natCast_nonneg _, ?_, ?_⟩
  · have hdiv := (Nat.div_lt_iff_lt_mul (Nat.two_pow_pos (scale period))).mpr hlt
    simp only [Interval.ofPeriod, hround]
    omega
  · rw [rational_eq_div h, hsum]
    simp only [Interval.rational, Interval.ofPeriod, hround, Int.cast_natCast]
    generalize significand period % 2 ^ scale period = f at *
    generalize significand period / 2 ^ scale period = sec at *
    generalize roundBits 53 (f * 1000000) / 2 ^ scale period = usec at *
    have hlow' : (f : ℚ) * 1000000 < (usec + 1) * 2 ^ scale period := by exact_mod_cast hlow
    have hhigh' : (usec : ℚ) * 2 ^ scale period < f * 1000000 + 2 ^ scale period := by
      exact_mod_cast hhigh
    have hpos : (0 : ℚ) < 2 ^ scale period := by positivity
    generalize (2 : ℚ) ^ scale period = unit at *
    have hdiff : (sec : ℚ) + usec / 1000000 - (sec * unit + f) / unit
        = (usec * unit - f * 1000000) / unit / 1000000 := by
      field_simp
      ring
    rw [hdiff, abs_div, abs_div, abs_of_pos hpos, abs_of_pos (by norm_num : (0 : ℚ) < 1000000)]
    refine div_lt_div_of_pos_right ?_ (by norm_num)
    rw [div_lt_one hpos, abs_lt]
    constructor <;> linarith

theorem eq_zero_of_isPositive (h : isPositive period = true) : period.eq .zero = false := by
  have hz : Double.isNaN .zero = false := by decide
  by_cases hnan : period.isNaN = true
  · simp [Double.eq, hnan]
  · rw [Bool.not_eq_true] at hnan
    rw [isPositive, Double.lt_iff hz hnan] at h
    simp [Double.eq, hnan, h.ne']

/-- What the handler's two tests leave of the periods. -/
theorem accepted_period (hnan : period.isNaN = false) (hpos : period.le .zero = false)
    (hmax : maxPeriod.lt period = false) :
    isPositive period = true ∧ period.lt twoPow31 = true
      ∧ period.magnitude ≤ maxPeriod.magnitude := by
  have hz : Double.isNaN .zero = false := by decide
  have hm : maxPeriod.isNaN = false := by decide
  have ht : twoPow31.isNaN = false := by decide
  have hzkey : Double.key .zero = 0 := by decide
  have hmkey : maxPeriod.key = maxPeriod.magnitude := by decide
  have hmt : maxPeriod.key < twoPow31.key := by decide
  have hpos' : 0 < period.key := by simpa [Double.le, hnan, hz, hzkey] using hpos
  have hmax' := (Double.not_lt_iff hm hnan).mp hmax
  refine ⟨?_, (Double.lt_iff hnan ht).mpr (hmax'.trans_lt hmt), ?_⟩
  · rw [isPositive, Double.lt_iff hz hnan, hzkey]
    exact hpos'
  · have hkey : period.key = period.magnitude := by
      cases hneg : period.isNegative with
      | true =>
        rw [Double.key, if_pos hneg] at hpos'
        omega
      | false => rw [Double.key, if_neg (by simp [hneg])]
    omega

end Period

end MangOH.PeriodicSensor
