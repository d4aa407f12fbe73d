import Mathlib.Data.List.Basic
import Mathlib.Logic.Function.Basic

/-! Rings between one producer and one consumer, each with its own copy of the other's position.
Positions count every word since the start; a slot of the ring is a position modulo its size. -/
namespace MangOH

/-- The slots, everything the producer ever wrote, and five positions: how far the consumer has
read, has said so and is known to have read, and how far the producer is known to have written
and has said so. -/
structure Ring (α : Type*) where
  size : Nat
  start : Nat
  slots : Nat → α
  written : List α
  freed : Nat
  returned : Nat
  consumed : Nat
  seen : Nat
  published : Nat

namespace Ring
variable {α : Type*} {r : Ring α} {w : α} {a b d i n : Nat}

/-- The slot of a position. -/
def slot (r : Ring α) (n : Nat) : Nat := (r.start + n) % r.size

/-- The positions are in order, one slot stays free, and no unread word was overwritten. -/
structure Valid (r : Ring α) : Prop where
  start_lt : r.start < r.size
  freed_le : r.freed ≤ r.returned
  returned_le : r.returned ≤ r.consumed
  consumed_le : r.consumed ≤ r.seen
  seen_le : r.seen ≤ r.published
  published_le : r.published ≤ r.written.length
  room : r.written.length + 1 ≤ r.freed + r.size
  intact : ∀ i, (h : i < r.written.length) → r.consumed ≤ i → r.slots (r.slot i) = r.written[i]

theorem slot_lt (h : r.Valid) (n : Nat) : r.slot n < r.size :=
  Nat.mod_lt _ (Nat.zero_lt_of_lt h.start_lt)

theorem slot_zero (h : r.Valid) : r.slot 0 = r.start := Nat.mod_eq_of_lt h.start_lt

theorem slot_add (h : r.Valid) (hd : d ≤ r.size) :
    r.slot (n + d) = if r.slot n + d < r.size then r.slot n + d else r.slot n + d - r.size := by
  have hlt := slot_lt h n
  have hmod : r.slot (n + d) = (r.slot n + d) % r.size := by
    simp only [slot, ← Nat.add_assoc]
    rw [Nat.add_mod, Nat.add_mod (_ % _) d, Nat.mod_mod]
  rw [hmod]
  split
  · exact Nat.mod_eq_of_lt ‹_›
  · rw [Nat.mod_eq_sub_mod (by omega), Nat.mod_eq_of_lt (by omega)]

theorem slot_succ (h : r.Valid) :
    r.slot (n + 1) = if r.slot n + 1 = r.size then 0 else r.slot n + 1 := by
  have hlt := slot_lt h n
  rw [slot_add h (by omega)]
  split_ifs <;> omega

/-- Fewer than a whole ring apart, two positions have slots of their own. -/
theorem eq_of_slot_eq (h : r.Valid) (hab : a ≤ b) (hb : b < a + r.size)
    (hslot : r.slot a = r.slot b) : a = b := by
  obtain ⟨d, rfl⟩ := Nat.exists_eq_add_of_le hab
  have hlt := slot_lt h a
  rw [slot_add h (by omega)] at hslot
  split at hslot <;> omega

/-- How far one slot is ahead of another. -/
def gap (size a b : Nat) : Nat := if a ≤ b then b - a else size - a + b

theorem gap_slot (h : r.Valid) (hab : a ≤ b) (hb : b < a + r.size) :
    gap r.size (r.slot a) (r.slot b) = b - a := by
  obtain ⟨d, rfl⟩ := Nat.exists_eq_add_of_le hab
  have hlt := slot_lt h a
  rw [slot_add h (by omega), gap]
  split_ifs <;> omega

/-- The producer writes a word. -/
def store (r : Ring α) (w : α) : Ring α :=
  { r with slots := Function.update r.slots (r.slot r.written.length) w,
           written := r.written ++ [w] }

/-- The producer says how far it has written. -/
def publish (r : Ring α) (n : Nat) : Ring α := { r with published := n }

/-- The consumer learns it. -/
def see (r : Ring α) (n : Nat) : Ring α := { r with seen := n }

/-- The consumer reads. -/
def take (r : Ring α) (n : Nat) : Ring α := { r with consumed := n }

/-- The consumer says how far it has read. -/
def release (r : Ring α) (n : Nat) : Ring α := { r with returned := n }

/-- The producer learns it. -/
def learn (r : Ring α) (n : Nat) : Ring α := { r with freed := n }

theorem Valid.store (h : r.Valid) (hroom : r.written.length + 1 < r.freed + r.size) :
    (r.store w).Valid where
  start_lt := h.start_lt
  freed_le := h.freed_le
  returned_le := h.returned_le
  consumed_le := h.consumed_le
  seen_le := h.seen_le
  published_le := by
    have := h.published_le
    simp only [Ring.store, List.length_append, List.length_singleton]
    omega
  room := by
    simp only [Ring.store, List.length_append, List.length_singleton]
    omega
  intact i hi hread := by
    simp only [Ring.store, List.length_append, List.length_singleton] at hi hread ⊢
    change Function.update r.slots (r.slot r.written.length) w (r.slot i) = _
    obtain hlast | hlt : i = r.written.length ∨ i < r.written.length := by omega
    · subst hlast
      simp
    · have hne : r.slot i ≠ r.slot r.written.length := by
        intro heq
        have := h.freed_le
        have := h.returned_le
        have := eq_of_slot_eq h (by omega) (by omega) heq
        omega
      rw [Function.update_of_ne hne, List.getElem_append_left hlt]
      exact h.intact i hlt hread

theorem Valid.publish (h : r.Valid) (hle : r.published ≤ n) (hn : n ≤ r.written.length) :
    (r.publish n).Valid :=
  { h with seen_le := Nat.le_trans h.seen_le hle, published_le := hn }

theorem Valid.see (h : r.Valid) (hle : r.seen ≤ n) (hn : n ≤ r.published) : (r.see n).Valid :=
  { h with consumed_le := Nat.le_trans h.consumed_le hle, seen_le := hn }

theorem Valid.take (h : r.Valid) (hle : r.consumed ≤ n) (hn : n ≤ r.seen) : (r.take n).Valid :=
  { h with
    returned_le := Nat.le_trans h.returned_le hle
    consumed_le := hn
    intact := fun i hi hread => h.intact i hi (Nat.le_trans hle hread) }

theorem Valid.release (h : r.Valid) (hle : r.returned ≤ n) (hn : n ≤ r.consumed) :
    (r.release n).Valid :=
  { h with freed_le := Nat.le_trans h.freed_le hle, returned_le := hn }

theorem Valid.learn (h : r.Valid) (hle : r.freed ≤ n) (hn : n ≤ r.returned) :
    (r.learn n).Valid :=
  { h with freed_le := hn, room := Nat.le_trans h.room (Nat.add_le_add_right hle _) }

/-- The producer goes back to its first words. -/
def keep (r : Ring α) (n : Nat) : Ring α := { r with written := r.written.take n }

theorem Valid.keep (h : r.Valid) (hn : r.published ≤ n) : (r.keep n).Valid where
  start_lt := h.start_lt
  freed_le := h.freed_le
  returned_le := h.returned_le
  consumed_le := h.consumed_le
  seen_le := h.seen_le
  published_le := by
    have := h.published_le
    simp only [Ring.keep, List.length_take]
    omega
  room := by
    have := h.room
    simp only [Ring.keep, List.length_take]
    omega
  intact i hi hread := by
    simp only [Ring.keep, List.length_take] at hi
    simp only [Ring.keep, List.getElem_take]
    exact h.intact i (by omega) hread

/-- The words not read yet fit in the ring, with one slot to spare. -/
theorem Valid.unread_lt (h : r.Valid) : r.written.length - r.consumed < r.size := by
  have := h.start_lt
  have := h.room
  have := h.freed_le
  have := h.returned_le
  omega

end Ring
end MangOH
