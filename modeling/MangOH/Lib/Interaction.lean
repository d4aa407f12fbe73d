import Mathlib.Logic.Relation

/-! Programs that work on a shared state by requests while an environment works on it too. -/
namespace MangOH.Interaction
open Relation

variable {Op : Type} {Ans : Op → Type} {σ α β C : Type}

/-- A program ends with a value, or makes a request and goes on with the answer. -/
inductive Program (Op : Type) (Ans : Op → Type) (α : Type)
  | done (a : α)
  | ask (o : Op) (next : Ans o → Program Op Ans α)

protected def Program.bind : Program Op Ans α → (α → Program Op Ans β) → Program Op Ans β
  | .done a, f => f a
  | .ask o next, f => .ask o fun x => (next x).bind f

theorem Program.bind_assoc {γ : Type} (p : Program Op Ans α) (f : α → Program Op Ans β)
    (g : β → Program Op Ans γ) : (p.bind f).bind g = p.bind fun a => (f a).bind g := by
  induction p with
  | done a => rfl
  | ask o next ih => exact congrArg (Program.ask o) (funext ih)

instance : Monad (Program Op Ans) where
  pure := .done
  bind := .bind

/-- The program that makes one request. -/
def request (o : Op) : Program Op Ans (Ans o) := .ask o .done

/-- A program's run on a state that nothing else works on. -/
def Program.run (serve : σ → (o : Op) → σ × Ans o) : Program Op Ans α → σ → α × σ
  | .done a, s => (a, s)
  | .ask o next, s => (next (serve s o).2).run serve (serve s o).1

theorem Program.run_bind {serve : σ → (o : Op) → σ × Ans o} (p : Program Op Ans α)
    (f : α → Program Op Ans β) (s : σ) :
    (p.bind f).run serve s = (f (p.run serve s).1).run serve (p.run serve s).2 := by
  induction p generalizing s with
  | done a => rfl
  | ask o next ih => exact ih _ _

/-- How the shared state answers a request, and what the environment may do to it. -/
structure Interface (σ Op : Type) (Ans : Op → Type) where
  serve : σ → (o : Op) → σ × Ans o
  env : σ → σ → Prop

/-- An assertion that the environment cannot make false. -/
def Interface.Stable (face : Interface σ Op Ans) (P : σ → Prop) : Prop :=
  ∀ s t, P s → face.env s t → P t

/-- Whatever the environment does between the requests, `Inv` holds in every state on the way
and `Q` holds of the result. -/
def Safe (face : Interface σ Op Ans) (Inv : σ → Prop) :
    Program Op Ans α → (α → σ → Prop) → σ → Prop
  | .done a, Q, s => ∀ t, ReflTransGen face.env s t → Inv t ∧ Q a t
  | .ask o next, Q, s => ∀ t, ReflTransGen face.env s t →
      Inv t ∧ Safe face Inv (next (face.serve t o).2) Q (face.serve t o).1

variable {face : Interface σ Op Ans} {Inv P P' : σ → Prop} {p : Program Op Ans α}
  {f : α → Program Op Ans β} {Q : α → σ → Prop} {R : β → σ → Prop} {s t : σ}

theorem Interface.Stable.run (hP : face.Stable P) (hs : P s) (h : ReflTransGen face.env s t) :
    P t := by
  induction h with
  | refl => exact hs
  | tail _ hstep ih => exact hP _ _ ih hstep

theorem Safe.inv (h : Safe face Inv p Q s) : Inv s := by
  cases p with
  | done a => exact (h s .refl).1
  | ask o next => exact (h s .refl).1

theorem Safe.env (h : Safe face Inv p Q s) (hstep : face.env s t) : Safe face Inv p Q t := by
  cases p with
  | done a => exact fun u hu => h u (.head hstep hu)
  | ask o next => exact fun u hu => h u (.head hstep hu)

theorem Safe.result {a : α} (h : Safe face Inv (.done a) Q s) : Q a s := (h s .refl).2

theorem Safe.serve {o : Op} {next : Ans o → Program Op Ans α}
    (h : Safe face Inv (.ask o next) Q s) :
    Safe face Inv (next (face.serve s o).2) Q (face.serve s o).1 := (h s .refl).2

/-- A safe program that runs without interruption. -/
theorem Safe.run (h : Safe face Inv p Q s) : Q (p.run face.serve s).1 (p.run face.serve s).2 := by
  induction p generalizing s with
  | done a => exact h.result
  | ask o next ih => exact ih _ h.serve

theorem Safe.mono {Q' : α → σ → Prop} (h : Safe face Inv p Q s)
    (hQ : ∀ a t, Q a t → Q' a t) : Safe face Inv p Q' s := by
  induction p generalizing s with
  | done a => exact fun t ht => ⟨(h t ht).1, hQ a t (h t ht).2⟩
  | ask o next ih => exact fun t ht => ⟨(h t ht).1, ih _ (h t ht).2⟩

theorem Safe.weaken {Inv' : σ → Prop} (h : Safe face Inv p Q s) (hInv : ∀ t, Inv t → Inv' t) :
    Safe face Inv' p Q s := by
  induction p generalizing s with
  | done a => exact fun t ht => ⟨hInv t (h t ht).1, (h t ht).2⟩
  | ask o next ih => exact fun t ht => ⟨hInv t (h t ht).1, ih _ (h t ht).2⟩

/-- The rule for a finished program, from a stable assertion. -/
theorem safe_done {a : α} (hP : face.Stable P) (hs : P s) (h : ∀ t, P t → Inv t ∧ Q a t) :
    Safe face Inv (.done a) Q s := fun _ ht => h _ (hP.run hs ht)

/-- The rule for a request, from a stable assertion. -/
theorem safe_ask {o : Op} {next : Ans o → Program Op Ans α} (hP : face.Stable P) (hs : P s)
    (h : ∀ t, P t → Inv t ∧ Safe face Inv (next (face.serve t o).2) Q (face.serve t o).1) :
    Safe face Inv (.ask o next) Q s := fun _ ht => h _ (hP.run hs ht)

/-- The sequencing rule. -/
theorem Safe.bind (h : Safe face Inv p Q s)
    (hf : ∀ a t, Q a t → Safe face Inv (f a) R t) : Safe face Inv (p.bind f) R s := by
  induction p generalizing s with
  | done a => exact hf a s h.result
  | ask o next ih => exact fun t ht => ⟨(h t ht).1, ih _ (h t ht).2⟩

/-- The sequencing rule where nothing is left to do but to return. -/
theorem Safe.bind_done (h : Safe face Inv p Q s)
    (hf : ∀ a t, Q a t → ∃ b, f a = .done b ∧ R b t) : Safe face Inv (p.bind f) R s := by
  induction p generalizing s with
  | done a =>
    obtain ⟨b, hb, _⟩ := hf a s h.result
    change Safe face Inv (f a) R s
    rw [hb]
    intro t ht
    obtain ⟨hinv, hQ⟩ := h t ht
    obtain ⟨c, hc, hR⟩ := hf a t hQ
    cases hb.symm.trans hc
    exact ⟨hinv, hR⟩
  | ask o next ih => exact fun t ht => ⟨(h t ht).1, ih _ (h t ht).2⟩

/-- A client that makes calls one after the other, each run by a program. -/
structure Client (σ Op : Type) (Ans : Op → Type) (C α : Type) where
  program : σ → C → Program Op Ans α
  allowed : σ → C → Prop
  finish : σ → C → α → σ

/-- The shared state, and the call under way with what is left of its program. -/
structure Config (σ Op : Type) (Ans : Op → Type) (C α : Type) where
  state : σ
  call : Option (C × Program Op Ans α)

variable (face) (client : Client σ Op Ans C α)

/-- One step of the client or of the environment. -/
inductive Step : Config σ Op Ans C α → Config σ Op Ans C α → Prop
  | env {s t : σ} {call : Option (C × Program Op Ans α)} (h : face.env s t) :
      Step ⟨s, call⟩ ⟨t, call⟩
  | start {s : σ} {c : C} (h : client.allowed s c) :
      Step ⟨s, none⟩ ⟨s, some (c, client.program s c)⟩
  | serve {s : σ} {c : C} {o : Op} {next : Ans o → Program Op Ans α} :
      Step ⟨s, some (c, .ask o next)⟩
        ⟨(face.serve s o).1, some (c, next (face.serve s o).2)⟩
  | finish {s : σ} {c : C} {a : α} :
      Step ⟨s, some (c, .done a)⟩ ⟨client.finish s c a, none⟩

/-- The call that a step between two configurations starts. -/
def Config.started (c d : Config σ Op Ans C α) : List C :=
  match c.call, d.call with
  | none, some (call, _) => [call]
  | _, _ => []

/-- A run with the calls that it started. -/
inductive History (b : Config σ Op Ans C α) : List C → Config σ Op Ans C α → Prop
  | refl : History b [] b
  | tail {calls : List C} {c d : Config σ Op Ans C α} (h : History b calls c)
      (hstep : Step face client c d) : History b (calls ++ c.started d) d

variable {face client} {Idle : σ → Prop} {During : C → σ → Prop} {Result : C → α → Prop}

/-- What holds of a configuration between and during calls. -/
def Config.Good (face : Interface σ Op Ans) (client : Client σ Op Ans C α) (Idle : σ → Prop)
    (During : C → σ → Prop) (Result : C → α → Prop) (c : Config σ Op Ans C α) : Prop :=
  match c.call with
  | none => Idle c.state
  | some (call, p) =>
    Safe face (During call) p (fun a s => Result call a ∧ Idle (client.finish s call a)) c.state

/-- Where every allowed call is safe from an idle state and ends in one, every run is. -/
theorem good_of_run {c d : Config σ Op Ans C α} (hidle : face.Stable Idle)
    (hcall : ∀ s call, Idle s → client.allowed s call →
      Safe face (During call) (client.program s call)
        (fun a s => Result call a ∧ Idle (client.finish s call a)) s)
    (hc : c.Good face client Idle During Result) (hrun : ReflTransGen (Step face client) c d) :
    d.Good face client Idle During Result := by
  induction hrun with
  | refl => exact hc
  | tail _ hstep ih =>
    cases hstep with
    | @env s t call henv =>
      cases call with
      | none => exact hidle _ _ ih henv
      | some call => exact Safe.env ih henv
    | start hallowed => exact hcall _ _ ih hallowed
    | serve => exact Safe.serve ih
    | @finish s call a =>
      have hsafe : Safe face (During call) (.done a)
          (fun a s => Result call a ∧ Idle (client.finish s call a)) s := ih
      exact hsafe.result.2

/-- What holds of a configuration whose run has started these calls. -/
def Config.GoodAfter (face : Interface σ Op Ans) (client : Client σ Op Ans C α)
    (Idle : List C → σ → Prop) (During : List C → C → σ → Prop) (calls : List C)
    (c : Config σ Op Ans C α) : Prop :=
  match c.call with
  | none => Idle calls c.state
  | some (call, p) => ∃ before, calls = before ++ [call] ∧
    Safe face (During before call) p (fun a s => Idle calls (client.finish s call a)) c.state

/-- The rule of runs for assertions about the calls so far. -/
theorem good_of_history {Idle : List C → σ → Prop} {During : List C → C → σ → Prop}
    {b c : Config σ Op Ans C α} {calls : List C} (hidle : ∀ calls, face.Stable (Idle calls))
    (hcall : ∀ calls s call, Idle calls s → client.allowed s call →
      Safe face (During calls call) (client.program s call)
        (fun a s => Idle (calls ++ [call]) (client.finish s call a)) s)
    (hb : b.GoodAfter face client Idle During []) (hrun : History face client b calls c) :
    c.GoodAfter face client Idle During calls := by
  induction hrun with
  | refl => exact hb
  | tail _ hstep ih =>
    cases hstep with
    | @env s t call henv =>
      cases call with
      | none =>
        simp only [Config.started, List.append_nil]
        exact hidle _ _ _ ih henv
      | some call =>
        simp only [Config.started, List.append_nil]
        obtain ⟨before, hcalls, hsafe⟩ := ih
        exact ⟨before, hcalls, Safe.env hsafe henv⟩
    | start hallowed => exact ⟨_, rfl, hcall _ _ _ ih hallowed⟩
    | serve =>
      simp only [Config.started, List.append_nil]
      obtain ⟨before, hcalls, hsafe⟩ := ih
      exact ⟨before, hcalls, Safe.serve hsafe⟩
    | finish =>
      simp only [Config.started, List.append_nil]
      obtain ⟨before, hcalls, hsafe⟩ := ih
      exact hsafe.result

end MangOH.Interaction
