import Mathlib.Data.Finset.Card
import Mathlib.Data.List.Count
import Mathlib.Logic.Function.Basic
import Mathlib.Logic.Relation

/-! Links from sources to destinations that are kept twice: as a pointer in each destination and as
a list in each source. -/
namespace MangOH

structure Links (α : Type*) where
  src : α → Option α
  dests : α → List α

namespace Links

open Relation

variable {α : Type*} {l : Links α} {a b d d' q r s : α} {n : Nat}

/-- There is a link from the first to the second. -/
def Route (l : Links α) (s d : α) : Prop := l.src d = some s

def Acyclic (l : Links α) : Prop := ∀ d, ¬ TransGen l.Route d d

section Changes

variable [DecidableEq α]

/-- Each list holds just those that point back at it, each of them once. -/
def Consistent (l : Links α) : Prop :=
  ∀ s d, (l.dests s).count d = if l.src d = some s then 1 else 0

/-- Take the link into a destination away. -/
def unlink (l : Links α) (d : α) : Links α :=
  match l.src d with
  | none => l
  | some s => ⟨Function.update l.src d none, Function.update l.dests s ((l.dests s).erase d)⟩

/-- Add a link, at the end of the source's list. -/
def link (l : Links α) (d s : α) : Links α :=
  ⟨Function.update l.src d (some s), Function.update l.dests s (l.dests s ++ [d])⟩

theorem Consistent.mem_iff (h : l.Consistent) : d ∈ l.dests s ↔ l.Route s d := by
  rw [← List.count_pos_iff, h s d, Route]
  split <;> simp_all

theorem Consistent.nodup (h : l.Consistent) (s : α) : (l.dests s).Nodup := by
  rw [List.nodup_iff_count_le_one]
  intro d
  rw [h s d]
  split <;> omega

theorem Consistent.unlink (h : l.Consistent) (d : α) : (l.unlink d).Consistent := by
  intro s' d'
  unfold Links.unlink
  split
  · exact h s' d'
  · next s hs =>
    have hcount := h s' d'
    by_cases hd : d' = d
    · subst hd
      rw [hs] at hcount
      by_cases hss : s' = s
      · subst hss
        simp_all
      · have hne : s ≠ s' := fun heq => hss heq.symm
        simp_all
    · by_cases hss : s' = s
      · subst hss
        simp_all
      · simp_all

theorem Consistent.link (h : l.Consistent) (hd : l.src d = none) (s : α) :
    (l.link d s).Consistent := by
  intro s' d'
  have hcount := h s' d'
  unfold Links.link
  by_cases hdd : d' = d
  · subst hdd
    rw [hd] at hcount
    by_cases hss : s' = s
    · subst hss
      simp_all
    · have hne : s ≠ s' := fun heq => hss heq.symm
      simp_all
  · by_cases hss : s' = s
    · subst hss
      simp_all [Ne.symm hdd]
    · simp_all

theorem src_unlink (l : Links α) (d q : α) :
    (l.unlink d).src q = if q = d then none else l.src q := by
  unfold unlink
  split
  · next hnone =>
    split
    · next hq => rw [hq, hnone]
    · rfl
  · exact Function.update_apply ..

theorem src_link (l : Links α) (d s q : α) :
    (l.link d s).src q = if q = d then some s else l.src q := Function.update_apply ..

theorem dests_unlink_other (l : Links α) (hs : l.src d ≠ some s) :
    (l.unlink d).dests s = l.dests s := by
  unfold unlink
  split
  · rfl
  · next s' hs' =>
    refine Function.update_of_ne ?_ ..
    rintro rfl
    exact hs hs'

theorem dests_unlink_same (l : Links α) (hs : l.src d = some s) :
    (l.unlink d).dests s = (l.dests s).erase d := by
  simp [unlink, hs]

/-- All links from `a` become links from `b`. -/
def redirect (l : Links α) (a b : α) : List α → Links α
  | [] => l
  | d :: rest => ((l.unlink d).link d b).redirect a b rest

/-- What is left of the links from `a` while they are redirected. -/
theorem redirect_spec (hab : a ≠ b) (rest : List α) (h : l.Consistent) (hrest : l.dests a = rest) :
    (l.redirect a b rest).Consistent ∧ (l.redirect a b rest).dests a = [] ∧
    ∀ q, (l.redirect a b rest).src q = if l.src q = some a then some b else l.src q := by
  induction rest generalizing l with
  | nil =>
    refine ⟨h, hrest, fun q => ?_⟩
    have hno : l.src q ≠ some a := fun hq => by
      have hmem := h.mem_iff.mpr hq
      rw [hrest] at hmem
      cases hmem
    rw [if_neg hno]
    rfl
  | cons d rest ih =>
    have hd : l.src d = some a := h.mem_iff.mp (by simp [hrest])
    have hnone : (l.unlink d).src d = none := by simp [src_unlink]
    have hnext : ((l.unlink d).link d b).dests a = rest := by
      have hother : ((l.unlink d).link d b).dests a = (l.unlink d).dests a :=
        Function.update_of_ne hab ..
      rw [hother, dests_unlink_same l hd, hrest, List.erase_cons_head]
    obtain ⟨hcons, hdests, hsrc⟩ := ih ((h.unlink d).link hnone b) hnext
    refine ⟨hcons, hdests, fun q => ?_⟩
    show ((l.unlink d).link d b |>.redirect a b rest).src q = _
    rw [hsrc, src_link, src_unlink]
    by_cases hq : q = d
    · subst hq
      simp [hd, Ne.symm hab]
    · simp [hq]

/-- `b` takes the place of `a` as a destination. -/
def moveIn (l : Links α) (a b : α) : Links α :=
  match l.src a with
  | none => l
  | some s => (l.unlink a).link b s

/-- `b` takes the place of `a`. -/
def takeOver (l : Links α) (a b : α) : Links α :=
  (l.moveIn a b).redirect a b ((l.moveIn a b).dests a)

theorem Consistent.moveIn (h : l.Consistent) (hab : a ≠ b) (hb : l.src b = none) :
    (l.moveIn a b).Consistent := by
  unfold Links.moveIn
  split
  · exact h
  · refine (h.unlink a).link ?_ _
    rw [src_unlink, if_neg (Ne.symm hab), hb]

theorem src_moveIn (hab : a ≠ b) (hb : l.src b = none) (q : α) :
    (l.moveIn a b).src q = if q = a then none else l.src (if q = b then a else q) := by
  unfold moveIn
  split
  · next hnone =>
    by_cases hqa : q = a
    · simp [hqa, hnone]
    · by_cases hqb : q = b <;> simp_all
  · next s hs =>
    rw [src_link, src_unlink]
    by_cases hqa : q = a
    · subst hqa
      simp [hab]
    · by_cases hqb : q = b <;> simp_all

/-- The new name of a node that `b` may have taken the place of. -/
def rename (a b q : α) : α := if q = a then b else q

theorem takeOver_spec (h : l.Consistent) (hab : a ≠ b) (hb : l.src b = none) :
    (l.takeOver a b).Consistent ∧ (l.takeOver a b).src a = none ∧ (l.takeOver a b).dests a = [] ∧
    ∀ q, q ≠ a → (l.takeOver a b).src q = (l.src (rename b a q)).map (rename a b) := by
  obtain ⟨hcons, hdests, hsrc⟩ := redirect_spec (a := a) hab _ (h.moveIn hab hb) rfl
  refine ⟨hcons, ?_, hdests, fun q hq => ?_⟩
  · show (l.takeOver a b).src a = none
    unfold takeOver
    rw [hsrc, src_moveIn hab hb]
    simp
  · unfold takeOver rename
    rw [hsrc, src_moveIn hab hb, if_neg hq]
    cases l.src (if q = b then a else q) with
    | none => simp
    | some s => by_cases hs : s = a <;> simp [hs]

/-! ### Loops -/

theorem Acyclic.unlink (h : l.Acyclic) (d : α) : (l.unlink d).Acyclic := by
  intro q hq
  refine h q (hq.lift id fun s d' hr => ?_)
  show l.src d' = some s
  unfold Route at hr
  rw [src_unlink] at hr
  split at hr
  · cases hr
  · exact hr

/-- A path over a new link goes to its source first, and then on from its destination. -/
theorem transGen_link (hpath : TransGen (l.link d s).Route a b) :
    TransGen l.Route a b ∨ ReflTransGen l.Route a s ∧ ReflTransGen l.Route d b := by
  have hstep : ∀ {x y}, (l.link d s).Route x y → l.Route x y ∨ x = s ∧ y = d := by
    intro x y hr
    unfold Route at hr ⊢
    rw [src_link] at hr
    split at hr
    · next hy => exact .inr ⟨(Option.some.inj hr).symm, hy⟩
    · exact .inl hr
  induction hpath with
  | single hr =>
    rcases hstep hr with hr | ⟨rfl, rfl⟩
    · exact .inl (.single hr)
    · exact .inr ⟨.refl, .refl⟩
  | tail _ hr ih =>
    rcases hstep hr with hr | ⟨rfl, rfl⟩
    · rcases ih with hold | ⟨hto, hfrom⟩
      · exact .inl (hold.tail hr)
      · exact .inr ⟨hto, hfrom.tail hr⟩
    · rcases ih with hold | ⟨hto, _⟩
      · exact .inr ⟨hold.to_reflTransGen, .refl⟩
      · exact .inr ⟨hto, .refl⟩

/-- A new link closes no loop if it does not lead to its own source, and its source cannot be
reached from its destination. -/
theorem Acyclic.link (h : l.Acyclic) (hne : d ≠ s) (hno : ¬ TransGen l.Route d s) :
    (l.link d s).Acyclic := by
  intro q hq
  rcases transGen_link hq with hold | ⟨hto, hfrom⟩
  · exact h q hold
  · rcases reflTransGen_iff_eq_or_transGen.mp (hfrom.trans hto) with heq | hpath
    · exact hne heq.symm
    · exact hno hpath

theorem Acyclic.takeOver (h : l.Acyclic) (hcons : l.Consistent) (hab : a ≠ b)
    (hb : l.src b = none) (hout : ∀ q, l.src q ≠ some b) : (l.takeOver a b).Acyclic := by
  obtain ⟨_, hnone, _, hsrc⟩ := takeOver_spec hcons hab hb
  intro q hq
  refine h (rename b a q) (hq.lift (rename b a) fun s d hr => ?_)
  show l.src (rename b a d) = some (rename b a s)
  unfold Route at hr
  have hd : d ≠ a := by
    rintro rfl
    rw [hnone] at hr
    cases hr
  rw [hsrc d hd] at hr
  obtain ⟨s', hs', rfl⟩ := Option.map_eq_some_iff.mp hr
  rw [hs']
  unfold rename
  by_cases hsa : s' = a
  · simp [hsa]
  · have hsb : s' ≠ b := fun heq => hout _ (heq ▸ hs')
    simp [hsa, hsb]

end Changes

/-! ### Depth -/

/-- Every chain of links from here has fewer than that many nodes. -/
def Within (l : Links α) : Nat → α → Prop
  | 0, _ => False
  | n + 1, r => ∀ d ∈ l.dests r, l.Within n d

theorem Within.succ (h : l.Within n r) : l.Within (n + 1) r := by
  induction n generalizing r with
  | zero => exact h.elim
  | succ n ih => exact fun d hd => ih (h d hd)

theorem Within.mono {m : Nat} (h : l.Within n r) (hm : n ≤ m) : l.Within m r := by
  induction hm with
  | refl => exact h
  | step _ ih => exact ih.succ

/-- Without loops, a chain of links is no longer than there are nodes. -/
theorem Acyclic.within [DecidableEq α] (h : l.Acyclic) (hcons : l.Consistent) {nodes : Finset α}
    (hnodes : ∀ d, l.src d ≠ none → d ∈ nodes) (r : α) : l.Within (nodes.card + 1) r := by
  have hdest : ∀ {s d}, d ∈ l.dests s → l.Route s d ∧ d ∈ nodes := by
    intro s d hd
    have hr := hcons.mem_iff.mp hd
    refine ⟨hr, hnodes d ?_⟩
    rw [show l.src d = some s from hr]
    simp
  -- `seen` are the nodes on the chain so far
  have hseen : ∀ n (seen : Finset α) r, seen ⊆ nodes → (∀ u ∈ seen, ReflTransGen l.Route u r) →
      nodes.card + 1 ≤ n + seen.card → l.Within n r := by
    intro n
    induction n with
    | zero =>
      intro seen r hsub _ hle
      have := Finset.card_le_card hsub
      omega
    | succ n ih =>
      intro seen r hsub hup hle d hd
      obtain ⟨hr, hmem⟩ := hdest hd
      have hnew : d ∉ seen := fun hd' => h d (TransGen.tail' (hup d hd') hr)
      refine ih (insert d seen) d (Finset.insert_subset hmem hsub) ?_ ?_
      · intro u hu
        rcases Finset.mem_insert.mp hu with rfl | hu
        · exact .refl
        · exact (hup u hu).tail hr
      · rw [Finset.card_insert_of_notMem hnew]
        omega
  exact hseen _ ∅ r (Finset.empty_subset _)
    (fun u hu => absurd hu (Finset.notMem_empty u)) (by simp)

/-! ### Subtrees -/

/-- The node can be reached from `r`, or is `r`. -/
def Under (l : Links α) (r q : α) : Prop := ReflTransGen l.Route r q

theorem Under.refl (l : Links α) (r : α) : l.Under r r := ReflTransGen.refl

/-- Two nodes with a node in common below them are one above the other. -/
theorem under_total (h : l.Under d q) (h' : l.Under d' q) : l.Under d d' ∨ l.Under d' d := by
  have hunique : Relator.RightUnique fun d s => l.Route s d := by
    intro d s s' hs hs'
    exact Option.some.inj (hs.symm.trans hs')
  have hup : ∀ {r}, l.Under r q → ReflTransGen (fun d s => l.Route s d) q r :=
    fun hr => reflTransGen_swap.mpr hr
  rcases ReflTransGen.total_of_right_unique hunique (hup h) (hup h') with hd | hd
  · exact .inr (reflTransGen_swap.mp hd)
  · exact .inl (reflTransGen_swap.mp hd)

/-- The node that a path to `d` comes from lies between. -/
theorem under_of_ne (h : l.Under q d) (hne : q ≠ d) (hd : l.Route s d) : l.Under q s := by
  rcases ReflTransGen.cases_tail h with heq | ⟨s', hto, hr⟩
  · exact absurd heq.symm hne
  · have : s' = s := Option.some.inj (hr.symm.trans hd)
    exact this ▸ hto

/-- What is below one destination is not below another. -/
theorem Acyclic.disjoint (h : l.Acyclic) (hd : l.Route r d) (hd' : l.Route r d') (hne : d ≠ d')
    (hq : l.Under d q) : ¬ l.Under d' q := by
  intro hq'
  rcases under_total hq hq' with hup | hup
  · exact h r (TransGen.head' hd (under_of_ne hup hne hd'))
  · exact h r (TransGen.head' hd' (under_of_ne hup (Ne.symm hne) hd))

theorem Acyclic.not_under (h : l.Acyclic) (hd : l.Route r d) : ¬ l.Under d r :=
  fun hup => h r (TransGen.head' hd hup)

theorem Under.route (h : l.Under d q) (hd : l.Route r d) : l.Under r q := ReflTransGen.head hd h

end Links

end MangOH
