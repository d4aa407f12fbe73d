import MangOH.Lib.Interaction

/-! Programs of which one request fails. -/
namespace MangOH.Interaction
open Relation

variable {Op : Type} {Ans : Op → Type} {σ α β ε : Type}

/-- The request after the first ones fails, whether or not it was served. -/
structure Fault (ε : Type) where
  after : Nat
  served : Bool
  error : ε
deriving DecidableEq, Repr

/-- What is left of a fault behind some requests. -/
def Fault.skip (n : Nat) (fault : Fault ε) : Fault ε := { fault with after := fault.after - n }

/-- The program's run with the fault, and what is left of the fault after it. -/
def Program.failing (fail : (o : Op) → ε → Ans o) :
    Program Op Ans α → Option (Fault ε) → Program Op Ans (α × Option (Fault ε))
  | .done a, fault => .done (a, fault)
  | .ask o next, none => .ask o fun x => (next x).failing fail none
  | .ask o next, some ⟨0, false, e⟩ => (next (fail o e)).failing fail none
  | .ask o next, some ⟨0, true, e⟩ => .ask o fun _ => (next (fail o e)).failing fail none
  | .ask o next, some ⟨n + 1, served, e⟩ =>
    .ask o fun x => (next x).failing fail (some ⟨n, served, e⟩)

/-- The program makes so many requests and ends in `R`, but a failure ends it at once in `P`. -/
inductive Program.Steady (fail : (o : Op) → ε → Ans o) (P : ε → α → Prop) (R : α → Prop) :
    Nat → Program Op Ans α → Prop
  | done {a : α} (h : R a) : Steady fail P R 0 (.done a)
  | ask {o : Op} {next : Ans o → Program Op Ans α} {n : Nat}
      (hfail : ∀ e, ∃ a, next (fail o e) = .done a ∧ P e a)
      (hnext : ∀ x, (∀ e, x ≠ fail o e) → Steady fail P R n (next x)) :
      Steady fail P R (n + 1) (.ask o next)

variable {fail : (o : Op) → ε → Ans o} {face : Interface σ Op Ans} {Inv : σ → Prop}
  {p : Program Op Ans α} {f : α → Program Op Ans β} {Q : α → σ → Prop} {P : ε → α → Prop}
  {R : α → Prop} {P' : ε → β → Prop} {R' : β → Prop} {s t : σ} {m n : Nat}

theorem Program.failing_bind (fault : Option (Fault ε)) :
    (p.bind f).failing fail fault =
      (p.failing fail fault).bind fun r => (f r.1).failing fail r.2 := by
  induction p generalizing fault with
  | done a => rfl
  | ask o next ih =>
    cases fault with
    | none => exact congrArg (Program.ask o) (funext fun x => ih x none)
    | some fault =>
      obtain ⟨after, served, e⟩ := fault
      cases after with
      | zero =>
        cases served with
        | false => exact ih _ none
        | true => exact congrArg (Program.ask o) (funext fun _ => ih _ none)
      | succ n => exact congrArg (Program.ask o) (funext fun x => ih x _)

theorem Program.failing_none : p.failing fail none = p.bind fun a => .done (a, none) := by
  induction p with
  | done a => rfl
  | ask o next ih => exact congrArg (Program.ask o) (funext fun x => ih x)

/-- The sequencing rule. -/
theorem Program.Steady.bind (hp : p.Steady fail P R m)
    (hstop : ∀ e a, P e a → ∃ b, f a = .done b ∧ P' e b)
    (hf : ∀ a, R a → (f a).Steady fail P' R' n) : (p.bind f).Steady fail P' R' (m + n) := by
  induction hp with
  | done h =>
    rw [Nat.zero_add]
    exact hf _ h
  | @ask o next m hfail hnext ih =>
    rw [Nat.add_right_comm]
    refine .ask (fun e => ?_) ih
    obtain ⟨a, ha, hP⟩ := hfail e
    obtain ⟨b, hb, hP'⟩ := hstop e a hP
    refine ⟨b, ?_, hP'⟩
    rw [ha]
    exact hb

theorem Safe.envs (h : Safe face Inv p Q s) (hrun : ReflTransGen face.env s t) :
    Safe face Inv p Q t := by
  induction hrun with
  | refl => exact h
  | tail _ hstep ih => exact ih.env hstep

/-- No request of the program failed. -/
def Spared (n : Nat) (fault left : Option (Fault ε)) : Prop :=
  (∀ x ∈ fault, n ≤ x.after) ∧ left = fault.map (.skip n)

/-- One failed with this error. -/
def Struck (n : Nat) (fault left : Option (Fault ε)) (e : ε) : Prop :=
  (∃ x ∈ fault, x.after < n ∧ x.error = e) ∧ left = none

theorem Spared.succ {after : Nat} {served : Bool} {e : ε} {left : Option (Fault ε)}
    (h : Spared n (some ⟨after, served, e⟩) left) :
    Spared (n + 1) (some ⟨after + 1, served, e⟩) left := by
  obtain ⟨hle, hleft⟩ := h
  have hle := hle _ rfl
  simp only at hle
  refine ⟨fun x hx => ?_, ?_⟩
  · obtain rfl : _ = x := Option.some.inj hx
    exact Nat.succ_le_succ hle
  · simp only [hleft, Option.map_some, Fault.skip, Nat.add_sub_add_right]

theorem Struck.succ {after : Nat} {served : Bool} {e e' : ε} {left : Option (Fault ε)}
    (h : Struck n (some ⟨after, served, e⟩) left e') :
    Struck (n + 1) (some ⟨after + 1, served, e⟩) left e' := by
  obtain ⟨⟨x, hx, hlt, he⟩, hleft⟩ := h
  obtain rfl : _ = x := Option.some.inj hx
  exact ⟨⟨_, rfl, Nat.succ_lt_succ hlt, he⟩, hleft⟩

/-- Where no request fails of itself, a safe steady program meets the fault, or ends as it would
have without it. -/
theorem Safe.failing (hserve : ∀ s o e, (face.serve s o).2 ≠ fail o e)
    (h : Safe face Inv p Q s) (hp : p.Steady fail P R n) (fault : Option (Fault ε)) :
    Safe face Inv (p.failing fail fault)
      (fun r t => (Spared n fault r.2 ∧ R r.1 ∧ Q r.1 t) ∨
        ∃ e, Struck n fault r.2 e ∧ P e r.1 ∧ Inv t) s := by
  induction hp generalizing s fault with
  | done hR =>
    refine fun t ht => ⟨(h t ht).1, .inl ⟨⟨fun _ _ => Nat.zero_le _, ?_⟩, hR, (h t ht).2⟩⟩
    cases fault <;> rfl
  | @ask o next n hfail hnext ih =>
    cases fault with
    | none =>
      refine fun t ht => ⟨(h t ht).1, (ih _ (hserve t o) (h t ht).2 none).mono ?_⟩
      rintro r u (⟨hspared, hr⟩ | ⟨e, ⟨⟨x, hx, _⟩, _⟩, _⟩)
      · exact .inl ⟨⟨by simp, hspared.2⟩, hr⟩
      · cases hx
    | some fault =>
      obtain ⟨after, served, e⟩ := fault
      obtain ⟨a, ha, hP⟩ := hfail e
      cases after with
      | zero =>
        have hstruck : Struck (n + 1) (some ⟨0, served, e⟩) none e :=
          ⟨⟨_, rfl, Nat.zero_lt_succ n, rfl⟩, rfl⟩
        cases served with
        | false =>
          simp only [Program.failing, ha]
          exact fun t ht => ⟨(h t ht).1, .inr ⟨e, hstruck, hP, (h t ht).1⟩⟩
        | true =>
          simp only [Program.failing, ha]
          refine fun t ht => ⟨(h t ht).1, fun u hu => ?_⟩
          have hu := ((h t ht).2.envs hu).inv
          exact ⟨hu, .inr ⟨e, hstruck, hP, hu⟩⟩
      | succ k =>
        refine fun t ht =>
          ⟨(h t ht).1, (ih _ (hserve t o) (h t ht).2 (some ⟨k, served, e⟩)).mono ?_⟩
        rintro r u (⟨hspared, hr⟩ | ⟨e', hstruck, hr⟩)
        · exact .inl ⟨hspared.succ, hr⟩
        · exact .inr ⟨e', hstruck.succ, hr⟩

end MangOH.Interaction
