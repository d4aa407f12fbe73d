import MangOH.DataHub.Types

/-! The order of the doubles, as the comparison operators of C see it. -/
namespace MangOH.DataHub

namespace Double

variable {a b c : Double}

theorem lt_eq_true : a.lt b = true ↔ a.isNaN = false ∧ b.isNaN = false ∧ a.key < b.key := by
  simp [lt, and_assoc]

theorem le_eq_true : a.le b = true ↔ a.isNaN = false ∧ b.isNaN = false ∧ a.key ≤ b.key := by
  simp [le, and_assoc]

theorem eq_eq_true : a.eq b = true ↔ a.isNaN = false ∧ b.isNaN = false ∧ a.key = b.key := by
  simp [eq, and_assoc]

theorem lt_trans (a b c : Double) (h : a.lt b = true) (h' : b.lt c = true) : a.lt c = true := by
  obtain ⟨ha, _, hab⟩ := lt_eq_true.mp h
  obtain ⟨_, hc, hbc⟩ := lt_eq_true.mp h'
  exact lt_eq_true.mpr ⟨ha, hc, Int.lt_trans hab hbc⟩

theorem lt_asymm (a b : Double) (h : a.lt b = true) : b.lt a = false := by
  obtain ⟨ha, hb, hab⟩ := lt_eq_true.mp h
  exact (not_lt_iff hb ha).mpr (Int.le_of_lt hab)

theorem le_of_lt (h : a.lt b = true) : a.le b = true := by
  obtain ⟨ha, hb, hab⟩ := lt_eq_true.mp h
  exact le_eq_true.mpr ⟨ha, hb, Int.le_of_lt hab⟩

theorem lt_false_of_le_false (h : a.le b = false) : a.lt b = false := by
  cases hlt : a.lt b with
  | false => rfl
  | true => exact absurd (le_of_lt hlt) (by simp [h])

theorem lt_eq_false_iff (ha : a.isNaN = false) (hb : b.isNaN = false) :
    a.lt b = false ↔ b.le a = true := by
  rw [not_lt_iff ha hb, le_eq_true]
  simp [ha, hb]

theorem not_le_of_lt (h : a.lt b = true) : b.le a = false := by
  have hab := (lt_eq_true.mp h).2.2
  cases hle : b.le a with
  | false => rfl
  | true =>
    have hba := (le_eq_true.mp hle).2.2
    omega

theorem lt_of_lt_of_le (h : a.lt b = true) (h' : b.le c = true) : a.lt c = true := by
  obtain ⟨ha, _, hab⟩ := lt_eq_true.mp h
  obtain ⟨_, hc, hbc⟩ := le_eq_true.mp h'
  exact lt_eq_true.mpr ⟨ha, hc, Int.lt_of_lt_of_le hab hbc⟩

theorem le_false_of_not_lt (h : a.lt b = true) (h' : a.lt c = false) : b.le c = false := by
  cases hle : b.le c with
  | false => rfl
  | true => exact absurd (lt_of_lt_of_le h hle) (by simp [h'])

theorem le_false_of_lt (h : a.lt b = true) (h' : a.le c = false) : b.le c = false :=
  le_false_of_not_lt h (lt_false_of_le_false h')

theorem lt_of_le_of_ne (h : a.le b = true) (hne : b.eq a = false) : a.lt b = true := by
  obtain ⟨ha, hb, hab⟩ := le_eq_true.mp h
  refine lt_eq_true.mpr ⟨ha, hb, ?_⟩
  rcases Int.lt_or_eq_of_le hab with hlt | heq
  · exact hlt
  · have := eq_eq_true.mpr ⟨hb, ha, heq.symm⟩
    rw [hne] at this
    cases this

theorem lt_false_of_eq (h : b.eq a = true) : a.lt b = false := by
  obtain ⟨hb, ha, hab⟩ := eq_eq_true.mp h
  exact (not_lt_iff ha hb).mpr (Int.le_of_eq hab)

theorem eq_refl (h : a.isNaN = false) : a.eq a = true := eq_eq_true.mpr ⟨h, h, rfl⟩

theorem magnitude_lt (a : Double) : a.magnitude < 2 ^ 63 := Nat.mod_lt _ (by decide)

@[simp] theorem magnitude_fabs (a : Double) : a.fabs.magnitude = a.magnitude := by
  have hm := a.magnitude_lt
  unfold fabs magnitude at *
  rw [BitVec.toNat_ofNat]
  omega

@[simp] theorem isNaN_fabs (a : Double) : a.fabs.isNaN = a.isNaN := by
  unfold isNaN
  rw [magnitude_fabs]

end Double

end MangOH.DataHub
