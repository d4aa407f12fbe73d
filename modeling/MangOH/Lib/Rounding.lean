import Mathlib.Algebra.Group.Nat.Defs
import Mathlib.Data.Nat.Notation
import Mathlib.Data.Nat.Log

/-! Rounding natural numbers half to even: to a multiple of a step, and to a number of bits. -/
namespace MangOH.Lib

/-- The quotient of `n` and `d` rounded to the nearest integer, halves to the even one. -/
def roundHalfEven (n d : Nat) : Nat :=
  if 2 * (n % d) < d then n / d
  else if d < 2 * (n % d) then n / d + 1
  else if n / d % 2 = 0 then n / d else n / d + 1

/-- How many low bits of `n` do not fit in `p` bits. -/
def excessBits (p n : Nat) : Nat := n.log2 + 1 - p

/-- `n` rounded to a number that has only `p` significant bits. -/
def roundBits (p n : Nat) : Nat := roundHalfEven n (2 ^ excessBits p n) * 2 ^ excessBits p n

section HalfEven

variable {n d : Nat}

theorem roundHalfEven_floor : n / d ≤ roundHalfEven n d := by
  unfold roundHalfEven
  split
  · exact le_rfl
  · split
    · exact Nat.le_succ _
    · split <;> omega

theorem roundHalfEven_ceil (hd : 0 < d) :
    roundHalfEven n d = n / d ∨ n % d ≠ 0 ∧ roundHalfEven n d = n / d + 1 := by
  unfold roundHalfEven
  split
  · exact .inl rfl
  · have hr : n % d ≠ 0 := by omega
    split
    · exact .inr ⟨hr, rfl⟩
    · split
      · exact .inl rfl
      · exact .inr ⟨hr, rfl⟩

/-- Rounding to the nearest adds at most half a step. -/
theorem roundHalfEven_error : 2 * (roundHalfEven n d * d) ≤ 2 * n + d := by
  have hn := Nat.div_add_mod n d
  have hc : d * (n / d) = n / d * d := Nat.mul_comm _ _
  have hs : (n / d + 1) * d = n / d * d + d := Nat.succ_mul _ _
  unfold roundHalfEven
  split
  · omega
  · split
    · rw [hs]; omega
    · split
      · omega
      · rw [hs]; omega

end HalfEven

section Bits

variable {p n m : Nat}

/-- A number below `2 ^ k` has at most `k` bits, so at most `k - p` too many. -/
theorem excessBits_le (hp : 0 < p) {k : Nat} (hn : n < 2 ^ k) : excessBits p n ≤ k - p := by
  unfold excessBits
  by_cases h0 : n = 0
  · subst h0
    simp only [Nat.log2_zero]
    omega
  · have := (Nat.log2_lt h0).mpr hn
    omega

theorem roundBits_of_lt (hp : 0 < p) (h : n < 2 ^ p) : roundBits p n = n := by
  have hs : excessBits p n = 0 := by
    have := excessBits_le hp h
    omega
  simp [roundBits, roundHalfEven, hs, Nat.mod_one]

/-- Rounding never passes a multiple of the step below … -/
theorem le_roundBits (hm : 2 ^ excessBits p n ∣ m) (hn : m ≤ n) : m ≤ roundBits p n := by
  obtain ⟨q, rfl⟩ := hm
  have hpos : 0 < 2 ^ excessBits p n := Nat.two_pow_pos _
  have hq : q ≤ n / 2 ^ excessBits p n := by
    rwa [Nat.le_div_iff_mul_le hpos, Nat.mul_comm]
  rw [Nat.mul_comm]
  exact Nat.mul_le_mul_right _ (hq.trans roundHalfEven_floor)

/-- … nor one above. -/
theorem roundBits_le (hm : 2 ^ excessBits p n ∣ m) (hn : n ≤ m) : roundBits p n ≤ m := by
  obtain ⟨q, rfl⟩ := hm
  have hpos : 0 < 2 ^ excessBits p n := Nat.two_pow_pos _
  unfold roundBits
  rw [Nat.mul_comm _ q]
  refine Nat.mul_le_mul_right _ ?_
  rcases roundHalfEven_ceil (n := n) hpos with h | ⟨hr, h⟩
  · rw [h]
    exact Nat.div_le_of_le_mul hn
  · -- with a remainder, `n` is strictly below the multiple
    have hlt : n / 2 ^ excessBits p n < q := by
      refine (Nat.div_lt_iff_lt_mul hpos).mpr ?_
      rw [Nat.mul_comm]
      refine lt_of_le_of_ne hn fun he => hr ?_
      exact Nat.mod_eq_zero_of_dvd ⟨q, he⟩
    rw [h]
    exact hlt

theorem roundBits_error : 2 * roundBits p n ≤ 2 * n + 2 ^ excessBits p n := roundHalfEven_error

end Bits

end MangOH.Lib
