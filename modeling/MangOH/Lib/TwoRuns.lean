import MangOH.Lib.Outcome

/-! Two computations side by side: they fail alike, or both return and the results are related. -/
namespace MangOH.TwoRuns

open Outcome

universe u v

variable {ε : Type u} {α β γ δ : Type v} {R R' : α → β → Prop} {S : γ → δ → Prop} {x : Except ε α}
  {y : Except ε β} {f : α → Except ε γ} {g : β → Except ε δ}

def Alike (R : α → β → Prop) (x : Except ε α) (y : Except ε β) : Prop :=
  match x, y with
  | .ok a, .ok b => R a b
  | .error e, .error e' => e = e'
  | _, _ => False

theorem alike_eq {x y : Except ε α} : Alike Eq x y ↔ x = y := by
  cases x <;> cases y <;> simp [Alike]

theorem Alike.refl {R : α → α → Prop} (hR : ∀ a, R a a) (x : Except ε α) : Alike R x x := by
  cases x with
  | ok a => exact hR a
  | error e => exact rfl

theorem Alike.mono (h : Alike R x y) (hR : ∀ a b, R a b → R' a b) : Alike R' x y := by
  cases x <;> cases y
  · exact h
  · exact h
  · exact h
  · exact hR _ _ h

/-- The sequencing rule. -/
theorem Alike.bind (h : Alike R x y) (hf : ∀ a b, R a b → Alike S (f a) (g b)) :
    Alike S (x >>= f) (y >>= g) := by
  cases x <;> cases y
  · exact h
  · exact h.elim
  · exact h.elim
  · exact hf _ _ h

/-- What each computation is known to return. -/
theorem Alike.and_left {Q : α → Prop} (h : Alike R x y) (hx : Returns x Q) :
    Alike (fun a b => R a b ∧ Q a) x y := by
  cases x <;> cases y
  · exact h
  · exact h
  · exact h
  · exact ⟨h, hx⟩

/-- Two computations that cannot fail. -/
theorem Alike.of_sat {Q : α → Prop} {Q' : β → Prop} (hx : Sat (fun _ => True) x Q)
    (hy : Sat (fun _ => True) y Q') : Alike (fun a b => Q a ∧ Q' b) x y := by
  obtain ⟨a, rfl, ha⟩ := hx.exists_ok
  obtain ⟨b, rfl, hb⟩ := hy.exists_ok
  exact ⟨ha, hb⟩

end MangOH.TwoRuns
