import Mathlib.Data.List.Basic

/-! Paging through an ordered list: each search goes on after the position of what the last one has
found. -/
namespace MangOH.Cursor

universe u v w

variable {α : Type u} {κ : Type v} {ε : Type w} {lt : κ → κ → Bool} {pos : α → κ} {l : List α}
  {search : ε → κ → Option α} {a a' : α} {k : κ}

/-- What a client finds that searches once in each environment, until nothing is found. -/
def pages (search : ε → κ → Option α) (pos : α → κ) : List ε → κ → List α
  | [], _ => []
  | e :: es, k =>
    match search e k with
    | none => []
    | some a => a :: pages search pos es (pos a)

/-- The positions are ordered, each before all that follow it. -/
abbrev Ascending (lt : κ → κ → Bool) (pos : α → κ) (l : List α) : Prop :=
  l.Pairwise fun a b => lt (pos a) (pos b) = true

/-- A search that finds the first position after another one leaves only those after what it has
found. -/
theorem filter_after (htrans : ∀ a b c, lt a b = true → lt b c = true → lt a c = true)
    (hasymm : ∀ a b, lt a b = true → lt b a = false) (hl : Ascending lt pos l)
    (hfind : l.find? (fun b => lt k (pos b)) = some a) :
    l.filter (fun b => lt k (pos b)) = a :: l.filter fun b => lt (pos a) (pos b) := by
  induction l with
  | nil => cases hfind
  | cons b l ih =>
    obtain ⟨hb, hl⟩ := List.pairwise_cons.mp hl
    cases hk : lt k (pos b) with
    | true =>
      simp only [List.find?_cons, hk] at hfind
      cases hfind
      have hself : lt (pos a) (pos a) = false := by
        cases h : lt (pos a) (pos a) with
        | false => rfl
        | true => exact (hasymm _ _ h).symm.trans h |>.symm
      simp only [List.filter_cons, hk, hself, if_true, Bool.false_eq_true, if_false]
      congr 1
      refine List.filter_congr fun c hc => ?_
      rw [hb c hc]
      exact htrans _ _ _ hk (hb c hc)
    | false =>
      simp only [List.find?_cons, hk] at hfind
      have hab := hasymm _ _ (hb a (List.mem_of_find?_eq_some hfind))
      simp only [List.filter_cons, hk, hab, Bool.false_eq_true, if_false]
      exact ih hl hfind

/-- Searches that find the first position after the last one visit all positions in order. -/
theorem pages_eq (htrans : ∀ a b c, lt a b = true → lt b c = true → lt a c = true)
    (hasymm : ∀ a b, lt a b = true → lt b a = false) (hl : Ascending lt pos l)
    (hsearch : ∀ e, ∀ a ∈ l, search e (pos a) = l.find? fun b => lt (pos a) (pos b))
    (hk : ∀ e, search e k = l.find? fun b => lt k (pos b)) (es : List ε) :
    pages search pos es k = (l.filter fun b => lt k (pos b)).take es.length := by
  induction es generalizing k with
  | nil => simp [pages]
  | cons e es ih =>
    unfold pages
    rw [hk e]
    cases hfind : l.find? fun b => lt k (pos b) with
    | none =>
      have hnone : l.filter (fun b => lt k (pos b)) = [] :=
        List.filter_eq_nil_iff.mpr (List.find?_eq_none.mp hfind)
      simp [hnone]
    | some a =>
      have hmem := List.mem_of_find?_eq_some hfind
      rw [filter_after htrans hasymm hl hfind, List.length_cons, List.take_succ_cons]
      exact congrArg (a :: ·) (ih fun e => hsearch e a hmem)

/-- What is found after a result shows when the client searches once more. -/
theorem pages_append_of_mem {es : List ε} {e : ε} (ha : a ∈ pages search pos es k)
    (hnext : ∀ e, search e (pos a) = some a') :
    ∃ before after, pages search pos (es ++ [e]) k = before ++ a :: a' :: after := by
  induction es generalizing k with
  | nil => cases ha
  | cons e' es ih =>
    unfold pages at ha
    simp only [List.cons_append, pages]
    cases hs : search e' k with
    | none =>
      rw [hs] at ha
      cases ha
    | some b =>
      rw [hs] at ha
      rcases List.mem_cons.mp ha with rfl | ha
      · refine ⟨[], ?_⟩
        cases es with
        | nil => exact ⟨[], by simp [pages, hnext]⟩
        | cons e'' es => exact ⟨pages search pos (es ++ [e]) (pos a'), by simp [pages, hnext]⟩
      · obtain ⟨before, after, hpages⟩ := ih ha
        exact ⟨b :: before, after, by simp [hpages]⟩

end MangOH.Cursor
