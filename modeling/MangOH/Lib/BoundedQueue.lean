import Mathlib.Data.List.Basic
import Mathlib.Data.List.Chain
import Mathlib.Order.Basic

/-! Bounded queues that drop their oldest elements, and refuse an element that is older than the
newest one they hold. -/
namespace MangOH.BoundedQueue

variable {α : Type*} (older : α → α → Bool) {q l : List α} {a b : α} {n : Nat}

/-- Queue an element at the end unless it is older than the newest one. -/
def push (q : List α) (a : α) : List α :=
  match q.getLast? with
  | some newest => if older a newest then q else q ++ [a]
  | none => q ++ [a]

/-- The newest `n` elements. -/
def keepLast (n : Nat) (q : List α) : List α := q.drop (q.length - n)

/-- The elements of a history that are not older than any element kept before them. -/
def kept (l : List α) : List α :=
  l.foldl (fun q a => if q.all fun b => !older a b then q ++ [a] else q) []

theorem push_of_older (hb : q.getLast? = some b) (h : older a b = true) : push older q a = q := by
  simp [push, hb, h]

theorem push_of_not_older (h : ∀ b, q.getLast? = some b → older a b = false) :
    push older q a = q ++ [a] := by
  unfold push
  split
  · simp [h _ ‹_›]
  · rfl

theorem push_cases (q : List α) (a : α) : push older q a = q ∨ push older q a = q ++ [a] := by
  unfold push
  split
  · split
    · exact .inl rfl
    · exact .inr rfl
  · exact .inr rfl

/-- In a queue, no element is older than the one before it. -/
abbrev InOrder (q : List α) : Prop := q.IsChain fun a b => older b a = false

theorem inOrder_push (h : InOrder older q) : InOrder older (push older q a) := by
  cases hlast : q.getLast? with
  | none =>
    rw [List.getLast?_eq_none_iff] at hlast
    subst hlast
    simp [push]
  | some b =>
    cases hold : older a b with
    | true => rwa [push_of_older older hlast hold]
    | false =>
      rw [push_of_not_older older (by simp [hlast, hold])]
      refine List.isChain_append.mpr ⟨h, List.isChain_singleton a, ?_⟩
      intro x hx y hy
      simp only [hlast, Option.mem_some_iff, List.head?_cons] at hx hy
      subst hx hy
      exact hold

theorem inOrder_keepLast (h : InOrder older q) : InOrder older (keepLast n q) := h.drop _

@[simp] theorem length_keepLast (n : Nat) (q : List α) :
    (keepLast n q).length = min q.length n := by
  simp only [keepLast, List.length_drop]
  omega

theorem keepLast_of_length_le (h : q.length ≤ n) : keepLast n q = q := by
  simp [keepLast, Nat.sub_eq_zero_of_le h]

theorem getLast?_keepLast (hn : 0 < n) (q : List α) : (keepLast n q).getLast? = q.getLast? := by
  unfold keepLast
  rw [List.getLast?_drop]
  split
  · have : q = [] := List.eq_nil_of_length_eq_zero (by omega)
    simp [this]
  · rfl

theorem keepLast_append (q : List α) (a : α) :
    keepLast n (keepLast n q ++ [a]) = keepLast n (q ++ [a]) := by
  unfold keepLast
  rw [List.length_append, List.length_append, List.length_drop]
  by_cases h : q.length - n = 0
  · simp [h]
  · rw [List.drop_append, List.drop_append, List.drop_drop, List.length_drop]
    congr 2 <;> simp only [List.length_singleton] <;> omega

theorem keepLast_keepLast (m n : Nat) (q : List α) :
    keepLast m (keepLast n q) = keepLast (min n m) q := by
  unfold keepLast
  rw [List.drop_drop, List.length_drop]
  congr 1
  omega

theorem mem_keepLast_append (hn : 0 < n) (q : List α) (a : α) : a ∈ keepLast n (q ++ [a]) := by
  refine List.mem_of_getLast? ?_
  rw [getLast?_keepLast hn, List.getLast?_concat]

/-- Behind a window of the newest elements a new one comes in, and the window is bounded. -/
theorem keepLast_window (hw : n ≤ q.length) (m : Nat) (a : α) :
    keepLast m (keepLast n q ++ [a]) = keepLast (min (n + 1) m) (q ++ [a]) := by
  have hwindow : keepLast n q ++ [a] = keepLast (n + 1) (q ++ [a]) := by
    unfold keepLast
    rw [List.length_append, List.length_singleton, List.drop_append_of_le_length (by omega)]
    congr 2
    omega
  rw [hwindow, keepLast_keepLast]

/-- Bounding the queue after every push leaves the newest elements of the unbounded queue. -/
theorem keepLast_push (hn : 0 < n) (q : List α) (a : α) :
    keepLast n (push older (keepLast n q) a) = keepLast n (push older q a) := by
  unfold push
  rw [getLast?_keepLast hn]
  split
  · split
    · unfold keepLast
      rw [List.drop_drop, List.length_drop]
      congr 1
      omega
    · exact keepLast_append q a
  · exact keepLast_append q a

theorem length_foldl_push_le (l q : List α) :
    (l.foldl (push older) q).length ≤ q.length + l.length := by
  induction l generalizing q with
  | nil => exact Nat.le_refl _
  | cons a l ih =>
    have hrest := ih (push older q a)
    rcases push_cases older q a with h | h <;>
    · rw [h] at hrest
      simp only [List.foldl_cons, h, List.length_cons, List.length_append,
        List.length_nil] at hrest ⊢
      omega

/-- Nothing is refused just if all elements come in order. -/
theorem length_foldl_push_iff (h : InOrder older q) :
    (l.foldl (push older) q).length = q.length + l.length ↔ InOrder older (q ++ l) := by
  induction l generalizing q with
  | nil => simpa using h
  | cons a l ih =>
    cases hold : q.getLast?.any (older a) with
    | true =>
      obtain ⟨b, hb, hba⟩ := (Option.any_eq_true _ _).mp hold
      have hle := length_foldl_push_le older l q
      rw [List.foldl_cons, push_of_older older hb hba, List.length_cons]
      refine iff_of_false (by omega) fun horder => ?_
      rw [(List.isChain_append.mp horder).2.2 b hb a rfl] at hba
      cases hba
    | false =>
      have hnot : ∀ b, q.getLast? = some b → older a b = false := by
        intro b hb
        simpa [hb] using hold
      have hpush := push_of_not_older older hnot
      have hq := inOrder_push older (a := a) h
      rw [hpush] at hq
      have hrest := ih hq
      rw [List.append_assoc, List.singleton_append] at hrest
      rw [List.foldl_cons, hpush, ← hrest]
      simp only [List.length_append, List.length_cons, List.length_nil]
      omega

section Total

variable {older} {good : α → Prop}
  (trans : ∀ a b c, good a → good b → good c → older b a = false → older c b = false →
    older c a = false)

include trans in
/-- In an ordered queue of comparable elements the newest one decides. -/
theorem all_not_older_iff (h : InOrder older q) (hq : ∀ b ∈ q, good b) (ha : good a) :
    (q.all fun b => !older a b) = true ↔ ∀ b, q.getLast? = some b → older a b = false := by
  constructor
  · intro hall b hb
    simpa using List.all_eq_true.mp hall b (List.mem_of_getLast? hb)
  · intro hlast
    induction q with
    | nil => rfl
    | cons b q ih =>
      have hlast' : ∀ c, q.getLast? = some c → older a c = false := fun c hc =>
        hlast c (by rw [List.getLast?_cons, hc]; rfl)
      have hrest := ih h.tail (fun c hc => hq c (List.mem_cons_of_mem _ hc)) hlast'
      rw [List.all_cons, hrest, Bool.and_true, Bool.not_eq_true']
      cases q with
      | nil => exact hlast b rfl
      | cons c q =>
        have hbc : older c b = false := (List.isChain_cons_cons.mp h).1
        have hca : older a c = false := by
          simpa using List.all_eq_true.mp hrest c (List.mem_cons_self ..)
        exact trans b c a (hq b (by simp)) (hq c (by simp)) ha hbc hca

include trans in
/-- Comparing with the newest element alone keeps the right ones of comparable elements. -/
theorem foldl_push_eq_kept {l : List α} (hl : ∀ a ∈ l, good a) :
    l.foldl (push older) [] = kept older l := by
  have hstep : ∀ l q : List α, InOrder older q → (∀ a ∈ q, good a) → (∀ a ∈ l, good a) →
      l.foldl (push older) q
        = l.foldl (fun q a => if q.all fun b => !older a b then q ++ [a] else q) q := by
    intro l
    induction l with
    | nil => exact fun _ _ _ _ => rfl
    | cons a l ih =>
      intro q hq hgood hl
      have ha := hl a (List.mem_cons_self ..)
      have hpush : push older q a = if q.all fun b => !older a b then q ++ [a] else q := by
        split
        · next hall =>
          exact push_of_not_older older ((all_not_older_iff trans hq hgood ha).mp hall)
        · next hall =>
          rcases push_cases older q a with h | h
          · exact h
          · refine absurd ((all_not_older_iff trans hq hgood ha).mpr fun b hb => ?_) hall
            by_contra hold
            rw [push_of_older older hb (by simpa using hold)] at h
            simp at h
      rw [List.foldl_cons, List.foldl_cons, ← hpush]
      refine ih _ (inOrder_push older hq) ?_ fun b hb => hl b (List.mem_cons_of_mem _ hb)
      intro b hb
      rcases push_cases older q a with h | h <;> rw [h] at hb
      · exact hgood b hb
      · rcases List.mem_append.mp hb with hb | hb
        · exact hgood b hb
        · rwa [List.mem_singleton.mp hb]
  exact hstep l [] List.isChain_nil (fun _ hb => absurd hb List.not_mem_nil) hl

end Total

end MangOH.BoundedQueue
