import Mathlib.Data.List.Nodup
import Mathlib.Data.List.Range
import Mathlib.Data.Nat.ModEq

/-! The slots of a ring that are taken in turn: a window of consecutive positions. -/
namespace MangOH.Lib

/-- The slots of `n` positions from `head` on. -/
def turns (size head n : Nat) : List Nat := (List.range' head n).map (· % size)

variable {size head n : Nat}

@[simp] theorem turns_zero : turns size head 0 = [] := rfl

@[simp] theorem length_turns : (turns size head n).length = n := by simp [turns]

theorem turns_succ : turns size head (n + 1) = turns size head n ++ [(head + n) % size] := by
  simp [turns, List.range'_concat]

theorem nodup_turns (head : Nat) (hn : n ≤ size) : (turns size head n).Nodup := by
  refine List.Nodup.map_on ?_ List.nodup_range'
  intro i hi j hj heq
  rw [List.mem_range'_1] at hi hj
  -- two positions of the window are less than a turn apart
  obtain ⟨k, hk⟩ | ⟨k, hk⟩ := (Nat.le_total i j).imp Nat.exists_eq_add_of_le Nat.exists_eq_add_of_le
  · subst hk
    have hmod := Nat.sub_mod_eq_zero_of_mod_eq heq.symm
    rw [Nat.add_sub_cancel_left, Nat.mod_eq_of_lt (by omega)] at hmod
    omega
  · subst hk
    have hmod := Nat.sub_mod_eq_zero_of_mod_eq heq
    rw [Nat.add_sub_cancel_left, Nat.mod_eq_of_lt (by omega)] at hmod
    omega

/-- Counting on and starting again at the end. -/
theorem next_turn (hpos : 0 < size) (p : Nat) :
    (if p % size + 1 ≥ size then 0 else p % size + 1) = (p + 1) % size := by
  have hlt := Nat.mod_lt p hpos
  rw [Nat.add_mod p 1]
  split
  · have hend : p % size + 1 = size := by omega
    by_cases h1 : size = 1
    · rw [h1, Nat.mod_one]
    · rw [Nat.mod_eq_of_lt (show 1 < size by omega), hend, Nat.mod_self]
  · rw [Nat.mod_eq_of_lt (show 1 < size by omega),
      Nat.mod_eq_of_lt (show p % size + 1 < size by omega)]

theorem next_mem_turns (hpos : 0 < n) (hn : n = size) : (head + n) % size ∈ turns size head n := by
  refine List.mem_map.mpr ⟨head, List.mem_range'_1.mpr (by omega), ?_⟩
  rw [hn, Nat.add_mod_right]

/-- The window seen from its end. -/
theorem turns_eq_of_next (hn : n ≤ size) : turns size head n
    = (List.range n).map fun j => ((head + n) % size + (size - n) + j) % size := by
  unfold turns
  rw [List.range'_eq_map_range, List.map_map]
  refine List.map_congr_left fun j hj => ?_
  have heq : (head + n) % size + (size - n) + j ≡ head + j [MOD size] := by
    have h := (Nat.mod_modEq (head + n) size).add_right (size - n + j)
    rw [← Nat.add_assoc] at h
    refine h.trans ?_
    have hsum : head + n + (size - n + j) = head + j + size := by omega
    rw [hsum]
    exact Nat.add_modEq_right
  exact heq.symm

end MangOH.Lib
