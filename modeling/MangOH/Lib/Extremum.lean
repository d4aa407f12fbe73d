import Mathlib.Data.List.Basic

/-! The best element of a list, as a loop finds it that keeps the best one so far. -/
namespace MangOH.Extremum

universe u

variable {α : Type u} {unset : α → Bool} {better : α → α → Bool} {l : List α} {start : α}

/-- What becomes of a value when elements come by: each takes its place that is better, and the
first one if there is no value yet. -/
def best (unset : α → Bool) (better : α → α → Bool) (start : α) (l : List α) : α :=
  l.foldl (fun result a => if unset result || better a result then a else result) start

/-- How elements that are set compare: none is better than itself, and what is not better than a
second one is not better than what the second one is not better than. -/
structure Ranks (unset : α → Bool) (better : α → α → Bool) : Prop where
  irrefl : ∀ a, better a a = false
  asymm : ∀ a b, better a b = true → better b a = false
  trans : ∀ a b c, unset a = false → unset b = false → unset c = false →
    better a b = false → better b c = false → better a c = false

theorem best_of_set (hr : Ranks unset better) (hstart : unset start = false)
    (hl : ∀ a ∈ l, unset a = false) :
    best unset better start l ∈ start :: l ∧
      ∀ a ∈ start :: l, better a (best unset better start l) = false := by
  induction l generalizing start with
  | nil =>
    refine ⟨List.mem_cons_self, fun a ha => ?_⟩
    rw [List.mem_singleton.mp ha]
    exact hr.irrefl start
  | cons b l ih =>
    have hb := hl b List.mem_cons_self
    have hrest : ∀ a ∈ l, unset a = false := fun a ha => hl a (List.mem_cons_of_mem _ ha)
    -- what the first element makes of the value is at least as good as both
    obtain ⟨next, hnext, hmem, hset, hworse, hworse'⟩ : ∃ next,
        best unset better start (b :: l) = best unset better next l ∧ next ∈ start :: b :: l ∧
        unset next = false ∧ better start next = false ∧ better b next = false := by
      cases hbetter : better b start with
      | true =>
        refine ⟨b, ?_, by simp, hb, hr.asymm b start hbetter, hr.irrefl b⟩
        simp [best, hstart, hbetter]
      | false =>
        refine ⟨start, ?_, by simp, hstart, hr.irrefl start, hbetter⟩
        simp [best, hstart, hbetter]
    obtain ⟨hin, hbest⟩ := ih hset hrest
    rw [hnext]
    have hbestSet : unset (best unset better next l) = false := by
      rcases List.mem_cons.mp hin with heq | hin
      · rw [heq]
        exact hset
      · exact hrest _ hin
    have hlast := hbest next List.mem_cons_self
    constructor
    · rcases List.mem_cons.mp hin with heq | hin
      · rw [heq]
        exact hmem
      · exact List.mem_cons_of_mem _ (List.mem_cons_of_mem _ hin)
    · intro a ha
      rcases List.mem_cons.mp ha with rfl | ha
      · exact hr.trans _ _ _ hstart hset hbestSet hworse hlast
      · rcases List.mem_cons.mp ha with rfl | ha
        · exact hr.trans _ _ _ hb hset hbestSet hworse' hlast
        · exact hbest a (List.mem_cons_of_mem _ ha)

/-- A loop that starts without a value ends with an element than which none is better. -/
theorem best_spec (hr : Ranks unset better) (hstart : unset start = true) (hne : l ≠ [])
    (hl : ∀ a ∈ l, unset a = false) :
    best unset better start l ∈ l ∧ ∀ a ∈ l, better a (best unset better start l) = false := by
  obtain ⟨b, l, rfl⟩ := List.exists_cons_of_ne_nil hne
  have hfirst : best unset better start (b :: l) = best unset better b l := by
    simp [best, hstart]
  rw [hfirst]
  exact best_of_set hr (hl b List.mem_cons_self) fun a ha => hl a (List.mem_cons_of_mem _ ha)

end MangOH.Extremum
