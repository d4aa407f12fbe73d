import Mathlib.Algebra.Order.Field.Basic
import Mathlib.Data.Rat.Cast.Order
import Mathlib.Order.Monotone.Basic
import Mathlib.Tactic.Linarith
import Mathlib.Tactic.Positivity
import Mathlib.Tactic.Ring
import MangOH.DataHub.Doubles
import MangOH.DataHub.Scenario

/-! The numbers that finite doubles stand for. -/
namespace MangOH.DataHub

namespace Double

variable {a b d : Double} {m : Nat}

def isFinite (d : Double) : Bool := decide (d.magnitude < 0x7ff0000000000000)

/-- The number without its sign, in units of the smallest positive double. -/
def ulps (m : Nat) : Nat :=
  if m / 2 ^ 52 = 0 then m % 2 ^ 52 else (m % 2 ^ 52 + 2 ^ 52) * 2 ^ (m / 2 ^ 52 - 1)

/-- The number in these units. -/
def scaled (d : Double) : Int :=
  if d.isNegative then -(ulps d.magnitude : Int) else ulps d.magnitude

/-- The number that a finite double stands for. -/
def toRat (d : Double) : ℚ := d.scaled / 2 ^ 1074

theorem isNaN_of_isFinite (h : d.isFinite = true) : d.isNaN = false := by
  simp only [isFinite, isNaN, decide_eq_true_eq, decide_eq_false_iff_not] at *
  omega

theorem ulps_lt_succ (m : Nat) : ulps m < ulps (m + 1) := by
  unfold ulps
  have hm := Nat.div_add_mod m (2 ^ 52)
  have hlt := Nat.mod_lt m (Nat.two_pow_pos 52)
  generalize m / 2 ^ 52 = q at hm
  generalize m % 2 ^ 52 = f at hm hlt
  by_cases hcarry : f + 1 < 2 ^ 52
  · -- the next double has the same exponent
    have hq : (m + 1) / 2 ^ 52 = q := by omega
    have hf : (m + 1) % 2 ^ 52 = f + 1 := by omega
    rw [hq, hf]
    split
    · omega
    · exact Nat.mul_lt_mul_of_pos_right (by omega) (Nat.two_pow_pos _)
  · have hq : (m + 1) / 2 ^ 52 = q + 1 := by omega
    have hf : (m + 1) % 2 ^ 52 = 0 := by omega
    rw [hq, hf, if_neg (Nat.succ_ne_zero q)]
    split
    · next h0 =>
      subst h0
      simp only [Nat.zero_add, Nat.sub_self, Nat.pow_zero]
      omega
    · next h0 =>
      obtain ⟨k, rfl⟩ := Nat.exists_eq_succ_of_ne_zero h0
      simp only [Nat.succ_eq_add_one, Nat.add_sub_cancel, Nat.pow_succ, Nat.zero_add]
      have hk := Nat.two_pow_pos k
      calc (f + 2 ^ 52) * 2 ^ k < (2 ^ 52 * 2) * 2 ^ k := Nat.mul_lt_mul_of_pos_right (by omega) hk
        _ = 2 ^ 52 * (2 ^ k * 2) := by ring

theorem ulps_lt_iff (m m' : Nat) : ulps m < ulps m' ↔ m < m' :=
  (strictMono_nat_of_lt_succ ulps_lt_succ).lt_iff_lt

theorem ulps_zero : ulps 0 = 0 := by decide

theorem scaled_lt_iff : a.scaled < b.scaled ↔ a.key < b.key := by
  have hlt := ulps_lt_iff a.magnitude b.magnitude
  have hgt := ulps_lt_iff b.magnitude a.magnitude
  have ha := ulps_lt_iff 0 a.magnitude
  have hb := ulps_lt_iff 0 b.magnitude
  rw [ulps_zero] at ha hb
  unfold scaled key
  cases a.isNegative <;> cases b.isNegative <;>
    simp only [Bool.false_eq_true, if_false, if_true] <;> omega

theorem toRat_lt_iff : a.toRat < b.toRat ↔ a.key < b.key := by
  unfold toRat
  rw [div_lt_div_iff_of_pos_right (by positivity), Int.cast_lt]
  exact scaled_lt_iff

theorem toRat_le_iff : a.toRat ≤ b.toRat ↔ a.key ≤ b.key := by
  rw [← not_lt, toRat_lt_iff, Int.not_lt]

theorem lt_iff_toRat (ha : a.isNaN = false) (hb : b.isNaN = false) :
    a.lt b = true ↔ a.toRat < b.toRat := by
  rw [lt_iff ha hb, toRat_lt_iff]

theorem le_iff_toRat (ha : a.isNaN = false) (hb : b.isNaN = false) :
    a.le b = true ↔ a.toRat ≤ b.toRat := by
  rw [le_eq_true, toRat_le_iff]
  simp [ha, hb]

/-- A double that is greater than a natural number. -/
def Exceeds (d : Double) (n : Nat) : Prop :=
  d.isNaN = false ∧ if d.isFinite = true then (n : ℚ) < d.toRat else d.isNegative = false

theorem Exceeds.mono {n : Nat} (h : d.Exceeds n) (hmn : m ≤ n) : d.Exceeds m := by
  obtain ⟨hnum, hlt⟩ := h
  refine ⟨hnum, ?_⟩
  split at hlt
  · next hfin =>
    rw [if_pos hfin]
    exact lt_of_le_of_lt (Nat.cast_le.mpr hmn) hlt
  · next hfin =>
    rw [if_neg hfin]
    exact hlt

/-- The double is this natural number. -/
def IsNat (d : Double) (n : Nat) : Prop := d.isFinite = true ∧ d.toRat = n

theorem IsNat.lt_iff {n : Nat} (h : a.IsNat n) : a.lt d = true ↔ d.Exceeds n := by
  have hnum := isNaN_of_isFinite h.1
  unfold Exceeds
  cases hd : d.isNaN with
  | true => simp [lt, hd]
  | false =>
    rw [← h.2]
    cases hfin : d.isFinite with
    | true =>
      rw [lt_iff_toRat hnum hd]
      simp
    | false =>
      have ha := h.1
      simp only [isFinite, isNaN, decide_eq_true_eq, decide_eq_false_iff_not] at ha hd hfin
      rw [Double.lt_iff hnum (by simpa [isNaN] using hd)]
      unfold key
      cases d.isNegative <;> cases a.isNegative <;>
        simp only [Bool.false_eq_true, if_false, if_true, true_and, iff_true, iff_false,
          Bool.true_eq_false] <;> omega

end Double

/-- Natural numbers below this bound are converted exactly. -/
def Platform.ExactBelow (P : Platform) (bound : Nat) : Prop := ∀ n < bound, (P.ofNat n).IsNat n

theorem toNat_bits_double {n : Nat} (h0 : n ≠ 0) (hn : n < 2 ^ 53) :
    (double n).bits.toNat = (n * 2 ^ (52 - n.log2) - 2 ^ 52) + (1023 + n.log2) * 2 ^ 52 ∧
      2 ^ 52 ≤ n * 2 ^ (52 - n.log2) ∧ n * 2 ^ (52 - n.log2) < 2 ^ 53 := by
  have hlog : n.log2 < 53 := (Nat.log2_lt h0).mpr hn
  have hlow := Nat.mul_le_mul_right (2 ^ (52 - n.log2)) (Nat.log2_self_le h0)
  have hhigh := Nat.mul_lt_mul_of_pos_right (Nat.lt_log2_self (n := n))
    (Nat.two_pow_pos (52 - n.log2))
  rw [← Nat.pow_add, Nat.add_sub_cancel' (by omega)] at hlow
  rw [← Nat.pow_add, show n.log2 + 1 + (52 - n.log2) = 53 by omega] at hhigh
  refine ⟨?_, hlow, hhigh⟩
  unfold double double.bits
  rw [if_neg h0]
  dsimp only
  rw [BitVec.toNat_ofNat]
  generalize n * 2 ^ (52 - n.log2) = significand at hlow hhigh
  omega

theorem isNat_double {n : Nat} (hn : n < 2 ^ 53) : (double n).IsNat n := by
  by_cases h0 : n = 0
  · subst h0
    refine ⟨by decide, ?_⟩
    have hzero : (double 0).scaled = 0 := by decide
    simp [Double.toRat, hzero]
  · obtain ⟨hbits, hlow, hhigh⟩ := toNat_bits_double h0 hn
    have hlog : n.log2 < 53 := (Nat.log2_lt h0).mpr hn
    have hparts : (double n).isNegative = false ∧
        (double n).magnitude / 2 ^ 52 = 1023 + n.log2 ∧
        (double n).magnitude % 2 ^ 52 + 2 ^ 52 = n * 2 ^ (52 - n.log2) := by
      unfold Double.isNegative Double.magnitude
      rw [hbits]
      generalize n * 2 ^ (52 - n.log2) = significand at hlow hhigh ⊢
      refine ⟨?_, ?_, ?_⟩
      · simp only [decide_eq_false_iff_not]
        omega
      · omega
      · omega
    obtain ⟨hsign, hexp, hfrac⟩ := hparts
    have hscaled : (double n).scaled = (n * 2 ^ 1074 : Nat) := by
      unfold Double.scaled Double.ulps
      rw [hsign, hexp, hfrac, if_neg Bool.false_ne_true, if_neg (by omega), Nat.mul_assoc,
        ← Nat.pow_add]
      congr 4
      omega
    refine ⟨?_, ?_⟩
    · have hm := (double n).magnitude_lt
      simp only [Double.isFinite, decide_eq_true_eq]
      omega
    · rw [Double.toRat, hscaled, Int.cast_natCast, Nat.cast_mul, Nat.cast_pow]
      exact mul_div_cancel_right₀ _ (by positivity)

theorem smallPlatform_exact : smallPlatform.ExactBelow (2 ^ 53) := fun _ hn => isNat_double hn

end MangOH.DataHub
