import Mathlib.Data.List.Basic
import Mathlib.Tactic.TypeStar

/-! Ledgers of resources that are acquired and released. -/
namespace MangOH.Lib

structure Ledger (ρ : Type*) where
  acquired : List ρ := []
  released : List ρ := []
  held : List ρ := []
  /-- what is released while it is not held -/
  misused : List ρ := []
deriving DecidableEq

namespace Ledger

variable {ρ : Type*} {L : Ledger ρ} {r : ρ} {rs rs' rest : List ρ}

def acquire (L : Ledger ρ) (r : ρ) : Ledger ρ :=
  { L with acquired := r :: L.acquired, held := r :: L.held }

/-- `rs` is held, and everything else has been released once. -/
structure Holds (L : Ledger ρ) (rs : List ρ) : Prop where
  held : L.held.Perm rs
  balanced : L.acquired.Perm (L.released ++ L.held)
  misused : L.misused = []

theorem holds_empty : ({} : Ledger ρ).Holds [] := ⟨.nil, .nil, rfl⟩

theorem Holds.of_perm (h : L.Holds rs) (hrs : rs.Perm rs') : L.Holds rs' :=
  ⟨h.held.trans hrs, h.balanced, h.misused⟩

theorem Holds.mem (h : L.Holds rs) (hmem : r ∈ rs) : r ∈ L.held := h.held.mem_iff.mpr hmem

theorem Holds.acquire (h : L.Holds rs) (r : ρ) : (L.acquire r).Holds (r :: rs) where
  held := h.held.cons r
  balanced := (h.balanced.cons r).trans List.perm_middle.symm
  misused := h.misused

/-- A ledger that holds nothing has released all it acquired. -/
theorem Holds.settled (h : L.Holds []) : L.acquired.Perm L.released := by
  have hheld := List.perm_nil.mp h.held
  simpa [hheld] using h.balanced

variable [DecidableEq ρ]

def release (L : Ledger ρ) (r : ρ) : Ledger ρ :=
  if r ∈ L.held then { L with released := r :: L.released, held := L.held.erase r }
  else { L with released := r :: L.released, misused := r :: L.misused }

def releaseAll (L : Ledger ρ) (rs : List ρ) : Ledger ρ := rs.foldl release L

theorem Holds.release (h : L.Holds (r :: rest)) : (L.release r).Holds rest := by
  have hmem : r ∈ L.held := h.mem (by simp)
  unfold Ledger.release
  rw [if_pos hmem]
  refine ⟨?_, ?_, h.misused⟩
  · have := h.held.erase r
    rwa [List.erase_cons_head] at this
  · refine h.balanced.trans ?_
    rw [List.cons_append]
    exact ((List.perm_cons_erase hmem).append_left _).trans List.perm_middle

theorem Holds.releaseAll (h : L.Holds (rs ++ rest)) : (L.releaseAll rs).Holds rest := by
  induction rs generalizing L with
  | nil => exact h
  | cons r rs ih => exact ih h.release

end Ledger

end MangOH.Lib
