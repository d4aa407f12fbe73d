import Mathlib.Tactic.TypeStar

/-! Machines that step on events, and the states they reach when every step meets a condition. -/
namespace MangOH.Lib

structure Machine (σ α : Type*) where
  Init : σ → Prop
  Step : σ → α → σ → Prop

namespace Machine

variable {σ α : Type*} {M : Machine σ α} {ok ok' : σ → α → Prop} {s t : σ} {a : α}

/-- The states that runs reach whose steps are all `ok`. -/
inductive Reached (M : Machine σ α) (ok : σ → α → Prop) : σ → Prop
  | init {s : σ} (h : M.Init s) : Reached M ok s
  | step {s t : σ} {a : α} (h : Reached M ok s) (hok : ok s a) (hstep : M.Step s a t) :
      Reached M ok t

/-- What holds at first and is kept by each step that is `ok` holds throughout such runs. -/
theorem Reached.invariant (Inv : σ → Prop) (h : M.Reached ok s)
    (hinit : ∀ s, M.Init s → Inv s)
    (hstep : ∀ s a t, Inv s → ok s a → M.Step s a t → Inv t) : Inv s := by
  induction h with
  | init h => exact hinit _ h
  | step _ hok hs ih => exact hstep _ _ _ ih hok hs

/-- The state after the events, when each of them can happen in its turn. -/
def runEvents (step : σ → α → Option σ) : List α → σ → Option σ
  | [], s => some s
  | a :: as, s => (step s a).bind (runEvents step as)

theorem Reached.runEvents {step : σ → α → Option σ}
    (h : M.Reached (fun _ _ => True) s) (hstep : ∀ {s a t}, step s a = some t → M.Step s a t)
    (as : List α) (hrun : Machine.runEvents step as s = some t) :
    M.Reached (fun _ _ => True) t := by
  induction as generalizing s with
  | nil =>
    obtain rfl : s = t := by simpa [Machine.runEvents] using hrun
    exact h
  | cons a as ih =>
    obtain ⟨m, hfirst, hrest⟩ := Option.bind_eq_some_iff.mp hrun
    exact ih (.step h trivial (hstep hfirst)) hrest

end Machine

end MangOH.Lib
