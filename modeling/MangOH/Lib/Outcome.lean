import Mathlib.Logic.Basic
import Mathlib.Data.List.Basic

/-! Program logic for computations that return a result or stop with an error. -/
namespace MangOH.Outcome

universe u v

variable {ε : Type u} {α β σ : Type v} {bad : ε → Prop} {x : Except ε α} {f : α → Except ε β}
  {Q R : α → Prop} {S : β → Prop}

/-- Every result satisfies `Q`, and no error is a bad one. -/
def Sat (bad : ε → Prop) (x : Except ε α) (Q : α → Prop) : Prop :=
  match x with
  | .ok a => Q a
  | .error e => ¬ bad e

/-- Partial correctness: every error is allowed. -/
abbrev Returns (x : Except ε α) (Q : α → Prop) : Prop := Sat (fun _ => False) x Q

@[simp] theorem sat_ok (a : α) : Sat bad (.ok a) Q ↔ Q a := Iff.rfl

@[simp] theorem sat_pure (a : α) : Sat bad (pure a) Q ↔ Q a := Iff.rfl

@[simp] theorem sat_error (e : ε) : Sat bad (.error e : Except ε α) Q ↔ ¬ bad e := Iff.rfl

@[simp] theorem sat_throw (e : ε) : Sat bad (throw e : Except ε α) Q ↔ ¬ bad e := Iff.rfl

theorem Sat.result (h : Sat bad x Q) {a : α} (hx : x = .ok a) : Q a := by
  subst hx
  exact h

theorem Sat.no_bad (h : Sat bad x Q) {e : ε} (hx : x = .error e) : ¬ bad e := by
  subst hx
  exact h

theorem Sat.mono (h : Sat bad x Q) (hQ : ∀ a, Q a → R a) : Sat bad x R := by
  cases x with
  | ok a => exact hQ a h
  | error e => exact h

theorem Sat.weaken {worse : ε → Prop} (h : Sat worse x Q) (hb : ∀ e, bad e → worse e) :
    Sat bad x Q := by
  cases x with
  | ok a => exact h
  | error e => exact fun he => h (hb e he)

theorem Sat.and (h : Sat bad x Q) (h' : Sat bad x R) : Sat bad x fun a => Q a ∧ R a := by
  cases x with
  | ok a => exact ⟨h, h'⟩
  | error e => exact h

/-- A result is moreover one that the computation returns. -/
theorem Sat.and_result (h : Sat bad x Q) : Sat bad x fun a => Q a ∧ x = .ok a := by
  cases x with
  | ok a => exact ⟨h, rfl⟩
  | error e => exact h

/-- With no error allowed there is a result. -/
theorem Sat.exists_ok (h : Sat (fun _ => True) x Q) : ∃ a, x = .ok a ∧ Q a := by
  cases x with
  | ok a => exact ⟨a, rfl, h⟩
  | error e => exact absurd trivial h

/-- The computation returns a result that passes a test. -/
def passes (x : Except ε α) (test : α → Bool) : Bool :=
  match x with
  | .ok a => test a
  | .error _ => false

theorem passes_iff {test : α → Bool} : passes x test = true ↔ ∃ a, x = .ok a ∧ test a = true := by
  cases x <;> simp [passes]

/-- The computation stops with an error that passes a test. -/
def failsWith (x : Except ε α) (test : ε → Bool) : Bool :=
  match x with
  | .ok _ => false
  | .error e => test e

theorem failsWith_iff {test : ε → Bool} :
    failsWith x test = true ↔ ∃ e, x = .error e ∧ test e = true := by
  cases x <;> simp [failsWith]

theorem Returns.of_ok (h : ∀ a, x = .ok a → Q a) : Returns x Q := by
  cases x with
  | ok a => exact h a rfl
  | error e => exact id

/-- The sequencing rule. -/
theorem Sat.bind (h : Sat bad x Q) (hf : ∀ a, Q a → Sat bad (f a) S) : Sat bad (x >>= f) S := by
  cases x with
  | ok a => exact hf a h
  | error e => exact h

/-- The sequencing rule for a result of which nothing needs to be known. -/
theorem Returns.skip (hf : ∀ a, Returns (f a) S) : Returns (x >>= f) S := by
  cases x with
  | ok a => exact hf a
  | error e => exact id

theorem sat_map_iff {g : α → β} : Sat bad (g <$> x) S ↔ Sat bad x fun a => S (g a) := by
  cases x <;> rfl

@[simp] theorem ok_bind (a : α) : (Except.ok a : Except ε α) >>= f = f a := rfl

@[simp] theorem error_bind (e : ε) : (Except.error e : Except ε α) >>= f = .error e := rfl

@[simp] theorem map_ok (g : α → β) (a : α) : g <$> (Except.ok a : Except ε α) = .ok (g a) := rfl

@[simp] theorem map_error (g : α → β) (e : ε) :
    g <$> (Except.error e : Except ε α) = .error e := rfl

theorem bind_eq_ok {b : β} : x >>= f = .ok b ↔ ∃ a, x = .ok a ∧ f a = .ok b := by
  cases x with
  | ok a =>
    constructor
    · intro h
      exact ⟨a, rfl, h⟩
    · rintro ⟨_, h, hb⟩
      cases h
      exact hb
  | error e =>
    constructor
    · intro h
      cases h
    · rintro ⟨_, h, _⟩
      cases h

/-- The loop rule: what one round preserves, the loop preserves. -/
theorem Sat.foldlM {Inv : σ → Prop} {body : σ → β → Except ε σ} {l : List β} {s : σ}
    (hs : Inv s) (hbody : ∀ s, ∀ b ∈ l, Inv s → Sat bad (body s b) Inv) :
    Sat bad (l.foldlM body s) Inv := by
  induction l generalizing s with
  | nil => exact hs
  | cons b l ih =>
    rw [List.foldlM_cons]
    refine (hbody s b (by simp) hs).bind fun t ht => ?_
    exact ih ht fun s b hb => hbody s b (List.mem_cons_of_mem _ hb)

end MangOH.Outcome
