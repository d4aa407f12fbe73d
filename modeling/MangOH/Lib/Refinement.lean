import Mathlib.Logic.Function.Basic
import MangOH.Lib.Interaction

/-! Programs over one interface that do what programs over a family of others do, with requests
in between that the others do not see. -/
namespace MangOH.Interaction
open Relation

variable {ι Op Op' : Type} {Ans : Op → Type} {Ans' : Op' → Type} {σ τ α α' β β' C C' : Type}
  {low : Interface τ Op' Ans'} {high : ι → Interface σ Op Ans} {R : τ → (ι → σ) → Prop}

/-- What the environments may have done at both levels. -/
structure Later (low : Interface τ Op' Ans') (high : ι → Interface σ Op Ans)
    (R : τ → (ι → σ) → Prop) (t : τ) (s : ι → σ) (u : τ) (v : ι → σ) : Prop where
  low : ReflTransGen low.env t u
  high : ∀ i, ReflTransGen (high i).env (s i) (v i)
  related : R u v

/-- No request of the program is one of the others. -/
def Silent (low : Interface τ Op' Ans') (high : ι → Interface σ Op Ans) (R : τ → (ι → σ) → Prop) :
    Program Op' Ans' α' → (α' → τ → (ι → σ) → Prop) → τ → (ι → σ) → Prop
  | .done a', Q, t, s => R t s ∧ ∀ u v, Later low high R t s u v → Q a' u v
  | .ask o next, Q, t, s => R t s ∧ ∀ u v, Later low high R t s u v →
      Silent low high R (next (low.serve u o).2) Q (low.serve u o).1 v

variable {q : Program Op' Ans' α'} {p : Program Op Ans α} {Q : α' → τ → (ι → σ) → Prop}
  {f' : α' → Program Op' Ans' β'} {S : β' → τ → (ι → σ) → Prop} {t u w : τ} {s v x : ι → σ}

theorem Later.refl (h : R t s) : Later low high R t s t s := ⟨.refl, fun _ => .refl, h⟩

theorem Later.trans (h : Later low high R t s u v) (h' : Later low high R u v w x) :
    Later low high R t s w x :=
  ⟨h.low.trans h'.low, fun i => (h.high i).trans (h'.high i), h'.related⟩

theorem Silent.related (h : Silent low high R q Q t s) : R t s := by
  cases q with
  | done a' => exact h.1
  | ask o next => exact h.1

theorem Silent.later (h : Silent low high R q Q t s) (hlater : Later low high R t s u v) :
    Silent low high R q Q u v := by
  cases q with
  | done a' => exact ⟨hlater.related, fun w x hwx => h.2 w x (hlater.trans hwx)⟩
  | ask o next => exact ⟨hlater.related, fun w x hwx => h.2 w x (hlater.trans hwx)⟩

/-- The sequencing rule of silent programs. -/
theorem Silent.bind (h : Silent low high R q Q t s)
    (hf : ∀ a' u v, R u v → Q a' u v → Silent low high R (f' a') S u v) :
    Silent low high R (q.bind f') S t s := by
  induction q generalizing t s with
  | done a' => exact hf a' t s h.1 (h.2 t s (.refl h.1))
  | ask o next ih => exact ⟨h.1, fun u v huv => ih _ (h.2 u v huv)⟩

variable [DecidableEq ι]

/-- Each request of the program is one of `p`, which is the `i`th of the others, or silent. -/
def Refines (low : Interface τ Op' Ans') (high : ι → Interface σ Op Ans) (R : τ → (ι → σ) → Prop)
    (i : ι) : Program Op' Ans' α' → Program Op Ans α → (α' → α → τ → (ι → σ) → Prop) →
      τ → (ι → σ) → Prop
  | .done a', p, Q, t, s => R t s ∧ ∃ a, p = .done a ∧
      ∀ u v, Later low high R t s u v → Q a' a u v
  | .ask o next, p, Q, t, s => R t s ∧ ∀ u v, Later low high R t s u v →
      Refines low high R i (next (low.serve u o).2) p Q (low.serve u o).1 v ∨
      ∃ o' next', p = .ask o' next' ∧
        Refines low high R i (next (low.serve u o).2) (next' ((high i).serve (v i) o').2) Q
          (low.serve u o).1 (Function.update v i ((high i).serve (v i) o').1)

variable {i : ι} {Q₂ Q₃ : α' → α → τ → (ι → σ) → Prop} {f : α → Program Op Ans β}
  {S₂ : β' → β → τ → (ι → σ) → Prop}

theorem Refines.related (h : Refines low high R i q p Q₂ t s) : R t s := by
  cases q with
  | done a' => exact h.1
  | ask o next => exact h.1

theorem Refines.later (h : Refines low high R i q p Q₂ t s) (hlater : Later low high R t s u v) :
    Refines low high R i q p Q₂ u v := by
  cases q with
  | done a' =>
    obtain ⟨-, a, ha, hQ⟩ := h
    exact ⟨hlater.related, a, ha, fun w x hwx => hQ w x (hlater.trans hwx)⟩
  | ask o next => exact ⟨hlater.related, fun w x hwx => h.2 w x (hlater.trans hwx)⟩

theorem refines_done {a' : α'} {a : α} (hR : R t s)
    (hQ : ∀ u v, Later low high R t s u v → Q₂ a' a u v) :
    Refines low high R i (.done a') (.done a) Q₂ t s :=
  ⟨hR, a, rfl, hQ⟩

/-- The rule for a request that both make. -/
theorem refines_ask {o : Op'} {next : Ans' o → Program Op' Ans' α'} {o' : Op}
    {next' : Ans o' → Program Op Ans α} (hR : R t s)
    (h : ∀ u v, Later low high R t s u v →
      Refines low high R i (next (low.serve u o).2) (next' ((high i).serve (v i) o').2) Q₂
        (low.serve u o).1 (Function.update v i ((high i).serve (v i) o').1)) :
    Refines low high R i (.ask o next) (.ask o' next') Q₂ t s :=
  ⟨hR, fun u v huv => .inr ⟨o', next', rfl, h u v huv⟩⟩

/-- The sequencing rule where the first program is silent. -/
theorem Silent.bind_refines {p : Program Op Ans β} (h : Silent low high R q Q t s)
    (hf : ∀ a' u v, R u v → Q a' u v → Refines low high R i (f' a') p S₂ u v) :
    Refines low high R i (q.bind f') p S₂ t s := by
  induction q generalizing t s with
  | done a' => exact hf a' t s h.1 (h.2 t s (.refl h.1))
  | ask o next ih => exact ⟨h.1, fun u v huv => .inl (ih _ (h.2 u v huv))⟩

/-- The sequencing rule. -/
theorem Refines.bind (h : Refines low high R i q p Q₂ t s)
    (hf : ∀ a' a u v, R u v → Q₂ a' a u v → Refines low high R i (f' a') (f a) S₂ u v) :
    Refines low high R i (q.bind f') (p.bind f) S₂ t s := by
  induction q generalizing p t s with
  | done a' =>
    obtain ⟨hR, a, rfl, hQ⟩ := h
    exact hf a' a t s hR (hQ t s (.refl hR))
  | ask o next ih =>
    refine ⟨h.1, fun u v huv => ?_⟩
    rcases h.2 u v huv with hsilent | ⟨o', next', rfl, hask⟩
    · exact .inl (ih _ hsilent)
    · exact .inr ⟨o', _, rfl, ih _ hask⟩

theorem Refines.mono (h : Refines low high R i q p Q₂ t s)
    (hQ : ∀ a' a u v, R u v → Q₂ a' a u v → Q₃ a' a u v) :
    Refines low high R i q p Q₃ t s := by
  induction q generalizing p t s with
  | done a' =>
    obtain ⟨hR, a, rfl, hdone⟩ := h
    exact ⟨hR, a, rfl, fun u v huv => hQ a' a u v huv.related (hdone u v huv)⟩
  | ask o next ih =>
    refine ⟨h.1, fun u v huv => ?_⟩
    rcases h.2 u v huv with hsilent | ⟨o', next', rfl, hask⟩
    · exact .inl (ih _ hsilent)
    · exact .inr ⟨o', next', rfl, ih _ hask⟩

/-- The sequencing rule where nothing is left to do but to return. -/
theorem Refines.map {g : α' → β'} {S' : β' → α → τ → (ι → σ) → Prop}
    (h : Refines low high R i q p Q₂ t s)
    (hg : ∀ a' a u v, R u v → Q₂ a' a u v → S' (g a') a u v) :
    Refines low high R i (q.bind fun a' => .done (g a')) p S' t s := by
  induction q generalizing p t s with
  | done a' =>
    obtain ⟨hR, a, rfl, hdone⟩ := h
    exact refines_done hR fun u v huv => hg a' a u v huv.related (hdone u v huv)
  | ask o next ih =>
    refine ⟨h.1, fun u v huv => ?_⟩
    rcases h.2 u v huv with hsilent | ⟨o', next', rfl, hask⟩
    · exact .inl (ih _ hsilent)
    · exact .inr ⟨o', next', rfl, ih _ hask⟩

/-! ### Runs of a client -/

variable {client' : Client τ Op' Ans' C' α'} {client : ι → Client σ Op Ans C α}
  {owner : C' → Option (ι × C)} {J : τ → Prop} {Tells : C' → α' → Option α → Prop}
  {I : ι → σ → Prop}

/-- A client between two calls, and in one that belongs to a client of the family or to none. What
it returns `Tells` what the client of the family returns. -/
inductive Related (low : Interface τ Op' Ans') (high : ι → Interface σ Op Ans)
    (R : τ → (ι → σ) → Prop) (client' : Client τ Op' Ans' C' α') (client : ι → Client σ Op Ans C α)
    (owner : C' → Option (ι × C)) (J : τ → Prop) (Tells : C' → α' → Option α → Prop) :
    Config τ Op' Ans' C' α' → (ι → Config σ Op Ans C α) → Prop
  | idle {t : τ} {s : ι → σ} (hR : R t s) (hJ : J t) :
      Related low high R client' client owner J Tells ⟨t, none⟩ fun j => ⟨s j, none⟩
  | own {t : τ} {s : ι → σ} {call' : C'} {q : Program Op' Ans' α'} {i : ι} {call : C}
      {p : Program Op Ans α} (howner : owner call' = some (i, call))
      (h : Refines low high R i q p (fun a' a u v => Tells call' a' (some a) ∧
        J (client'.finish u call' a') ∧
        R (client'.finish u call' a') (Function.update v i ((client i).finish (v i) call a))) t s) :
      Related low high R client' client owner J Tells ⟨t, some (call', q)⟩ fun j =>
        ⟨s j, Function.update (fun _ => none) i (some (call, p)) j⟩
  | other {t : τ} {s : ι → σ} {call' : C'} {q : Program Op' Ans' α'} (howner : owner call' = none)
      (h : Silent low high R q (fun a' u v => Tells call' a' none ∧
        J (client'.finish u call' a') ∧ R (client'.finish u call' a') v) t s) :
      Related low high R client' client owner J Tells ⟨t, some (call', q)⟩ fun j => ⟨s j, none⟩

theorem run_env {face : Interface σ Op Ans} {client : Client σ Op Ans C α} {s v : σ}
    (call : Option (C × Program Op Ans α)) (h : ReflTransGen face.env s v) :
    ReflTransGen (Step face client) ⟨s, call⟩ ⟨v, call⟩ := by
  induction h with
  | refl => exact .refl
  | tail _ hstep ih => exact ih.tail (.env hstep)

/-- A call that nothing interrupts. -/
theorem run_call {face : Interface σ Op Ans} {client : Client σ Op Ans C α} {s : σ} {c : C}
    (h : client.allowed s c) : ReflTransGen (Step face client) ⟨s, none⟩
      ⟨client.finish ((client.program s c).run face.serve s).2 c
        ((client.program s c).run face.serve s).1, none⟩ := by
  have hrun : ∀ (p : Program Op Ans α) s, ReflTransGen (Step face client) ⟨s, some (c, p)⟩
      ⟨(p.run face.serve s).2, some (c, .done (p.run face.serve s).1)⟩ := by
    intro p
    induction p with
    | done a => exact fun s => .refl
    | ask o next ih => exact fun s => .head .serve (ih _ _)
  exact ((hrun _ s).head (.start h)).tail .finish

theorem run_update {c : ι → Config σ Op Ans C α} {called called' : Option (C × Program Op Ans α)}
    {y : σ} (hcs : ∀ j, ReflTransGen (Step (high j) (client j)) (c j)
      ⟨s j, Function.update (fun _ => none) i called j⟩)
    (hstep : Step (high i) (client i) ⟨s i, called⟩ ⟨y, called'⟩) (j : ι) :
    ReflTransGen (Step (high j) (client j)) (c j)
      ⟨Function.update s i y j, Function.update (fun _ => none) i called' j⟩ := by
  have hrun := hcs j
  by_cases hj : j = i
  · subst hj
    rw [Function.update_self] at hrun ⊢
    rw [Function.update_self]
    exact hrun.tail hstep
  · rw [Function.update_of_ne hj] at hrun ⊢
    rwa [Function.update_of_ne hj]

/-- Every run of the one client is one of each client of the family. -/
theorem exists_run {c' d' : Config τ Op' Ans' C' α'} {c : ι → Config σ Op Ans C α}
    (henv : ∀ t s u, R t s → low.env t u → ∃ v, Later low high R t s u v) (hJ : low.Stable J)
    (hidle : ∀ i d, ReflTransGen (Step (high i) (client i)) (c i) d → d.call = none → I i d.state)
    (hown : ∀ t s call' i call, R t s → J t → (∀ i, I i (s i)) → client'.allowed t call' →
      owner call' = some (i, call) → (client i).allowed (s i) call ∧
      Refines low high R i (client'.program t call') ((client i).program (s i) call)
        (fun a' a u v => Tells call' a' (some a) ∧ J (client'.finish u call' a') ∧
          R (client'.finish u call' a') (Function.update v i ((client i).finish (v i) call a))) t s)
    (hother : ∀ t s call', R t s → J t → client'.allowed t call' → owner call' = none →
      Silent low high R (client'.program t call') (fun a' u v => Tells call' a' none ∧
        J (client'.finish u call' a') ∧ R (client'.finish u call' a') v) t s)
    (hc : Related low high R client' client owner J Tells c' c)
    (hrun : ReflTransGen (Step low client') c' d') :
    ∃ d, (∀ i, ReflTransGen (Step (high i) (client i)) (c i) (d i)) ∧
      Related low high R client' client owner J Tells d' d := by
  have hnone : ∀ i j : ι,
      Function.update (fun _ => (none : Option (C × Program Op Ans α))) i none j = none := by
    intro i j
    rw [Function.update_eq_self]
  induction hrun with
  | refl => exact ⟨c, fun _ => .refl, hc⟩
  | tail _ hstep ih =>
    obtain ⟨d, hcd, hd⟩ := ih
    cases hd with
    | @idle t s hR hJt =>
      cases hstep with
      | @env _ u _ hstep =>
        obtain ⟨v, hlater⟩ := henv t s u hR hstep
        exact ⟨_, fun i => (hcd i).trans (run_env none (hlater.high i)),
          .idle hlater.related (hJ t u hJt hstep)⟩
      | @start _ call' hallowed =>
        cases howner : owner call' with
        | none => exact ⟨_, hcd, .other howner (hother t s call' hR hJt hallowed howner)⟩
        | some own =>
          obtain ⟨i, call⟩ := own
          obtain ⟨hallowed', hrefines⟩ := hown t s call' i call hR hJt
            (fun i => hidle i _ (hcd i) rfl) hallowed howner
          have hrun := run_update (i := i) (fun j => hnone i j ▸ hcd j) (.start hallowed')
          rw [Function.update_eq_self] at hrun
          exact ⟨_, hrun, .own howner hrefines⟩
    | @own t s call' q i call p howner hrefines =>
      cases hstep with
      | @env _ u _ hstep =>
        obtain ⟨v, hlater⟩ := henv t s u hrefines.related hstep
        exact ⟨_, fun j => (hcd j).trans (run_env _ (hlater.high j)),
          .own howner (hrefines.later hlater)⟩
      | @serve _ _ o next =>
        rcases hrefines.2 t s (.refl hrefines.1) with hsilent | ⟨o', next', rfl, hask⟩
        · exact ⟨_, hcd, .own howner hsilent⟩
        · exact ⟨_, run_update hcd .serve, .own howner hask⟩
      | @finish _ _ a' =>
        obtain ⟨hR, a, rfl, hQ⟩ := hrefines
        obtain ⟨-, hJt, hR'⟩ := hQ t s (.refl hR)
        have hrun := run_update hcd .finish
        exact ⟨_, fun j => hnone i j ▸ hrun j, .idle hR' hJt⟩
    | @other t s call' q howner hsilent =>
      cases hstep with
      | @env _ u _ hstep =>
        obtain ⟨v, hlater⟩ := henv t s u hsilent.related hstep
        exact ⟨_, fun j => (hcd j).trans (run_env none (hlater.high j)),
          .other howner (hsilent.later hlater)⟩
      | serve => exact ⟨_, hcd, .other howner (hsilent.2 t s (.refl hsilent.1))⟩
      | finish =>
        obtain ⟨-, hJt, hR⟩ := hsilent.2 t s (.refl hsilent.1)
        exact ⟨_, hcd, .idle hR hJt⟩

end MangOH.Interaction
