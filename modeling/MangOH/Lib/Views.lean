import MangOH.Lib.Interaction

/-! Safety seen through a map of the states, and safety that is only promised under a guard. -/
namespace MangOH.Interaction

variable {Op : Type} {Ans : Op → Type} {σ τ α β : Type}

/-- Seen through `φ`, the requests on one interface are those on another. -/
structure View (face' : Interface τ Op Ans) (face : Interface σ Op Ans) (φ : τ → σ) : Prop where
  serve : ∀ t o, φ (face'.serve t o).1 = (face.serve (φ t) o).1
  answer : ∀ t o, (face'.serve t o).2 = (face.serve (φ t) o).2
  env : ∀ t u, face'.env t u → face.env (φ t) (φ u)

/-- A guard that stays closed once it is closed. -/
structure Interface.Guard (face : Interface σ Op Ans) (G : σ → Prop) : Prop where
  serve : ∀ s o, G (face.serve s o).1 → G s
  env : ∀ s t, face.env s t → G t → G s

/-- Nothing is promised of the states on the way. -/
abbrev Ends (face : Interface σ Op Ans) (p : Program Op Ans α) (Q : α → σ → Prop) (s : σ) : Prop :=
  Safe face (fun _ => True) p Q s

variable {face : Interface σ Op Ans} {face' : Interface τ Op Ans} {φ : τ → σ} {G : σ → Prop}
  {Inv : σ → Prop} {p : Program Op Ans α} {f : α → Program Op Ans β} {Q : α → σ → Prop}
  {R : β → σ → Prop} {s : σ} {t : τ}

theorem View.run (hφ : View face' face φ) {u : τ}
    (h : Relation.ReflTransGen face'.env t u) : Relation.ReflTransGen face.env (φ t) (φ u) := by
  induction h with
  | refl => exact .refl
  | tail _ hstep ih => exact ih.tail (hφ.env _ _ hstep)

/-- What neither the requests nor the environment touch. -/
theorem Safe.keep {P : σ → Prop} (hserve : ∀ s o, P s → P (face.serve s o).1) (hP : face.Stable P)
    (hs : P s) (h : Safe face Inv p Q s) : Safe face Inv p (fun a t => Q a t ∧ P t) s := by
  induction p generalizing s with
  | done a => exact fun t ht => ⟨(h t ht).1, (h t ht).2, hP.run hs ht⟩
  | ask o next ih => exact fun t ht => ⟨(h t ht).1, ih _ (hserve _ _ (hP.run hs ht)) (h t ht).2⟩

theorem Interface.Guard.open_of_run (hG : face.Guard G) {t : σ}
    (h : Relation.ReflTransGen face.env s t) (ht : G t) : G s := by
  induction h with
  | refl => exact ht
  | tail _ hstep ih => exact ih (hG.env _ _ hstep ht)

/-- Behind a closed guard everything is promised. -/
theorem ends_closed (hG : face.Guard G) (hs : ¬ G s) :
    Ends face p (fun a t => G t → Q a t) s := by
  induction p generalizing s with
  | done a => exact fun t ht => ⟨trivial, fun hopen => absurd (hG.open_of_run ht hopen) hs⟩
  | ask o next ih =>
    intro t ht
    exact ⟨trivial, ih _ fun hopen => hs (hG.open_of_run ht (hG.serve _ _ hopen))⟩

/-- The sequencing rule, where the second program only runs behind an open guard. -/
theorem Safe.bind_guard (hG : face.Guard G) (h : Ends face p (fun a t => G t → Q a t) s)
    (hf : ∀ a t, G t → Q a t → Ends face (f a) (fun b u => G u → R b u) t) :
    Ends face (p.bind f) (fun b u => G u → R b u) s := by
  refine h.bind fun a t ht => ?_
  by_cases hopen : G t
  · exact hf a t hopen (ht hopen)
  · exact ends_closed hG hopen

variable {C : Type} (face) (client : Client σ Op Ans C α)

/-- The client's next steps, with none of the environment's between them. -/
def Config.drive : Nat → Config σ Op Ans C α → Config σ Op Ans C α
  | 0, c => c
  | _ + 1, ⟨s, none⟩ => ⟨s, none⟩
  | _ + 1, ⟨s, some (call, .done a)⟩ => ⟨client.finish s call a, none⟩
  | n + 1, ⟨s, some (call, .ask o next)⟩ =>
    Config.drive n ⟨(face.serve s o).1, some (call, next (face.serve s o).2)⟩

theorem Config.run_drive (n : Nat) (c : Config σ Op Ans C α) :
    Relation.ReflTransGen (Step face client) c (c.drive face client n) := by
  induction n generalizing c with
  | zero => exact .refl
  | succ n ih =>
    obtain ⟨s, _ | ⟨call, _ | ⟨o, next⟩⟩⟩ := c
    · exact .refl
    · exact .single .finish
    · exact .head .serve (ih _)

end MangOH.Interaction
