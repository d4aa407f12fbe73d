import Mathlib.Data.List.Nodup
import MangOH.Lib.Links

/-! Messages that are passed on along links: each node that gets one turns it into the message for
its destinations, or keeps it to itself. -/
namespace MangOH.Links

open Relation

variable {α μ : Type*} {l : Links α} {relay relay' : α → μ → Option μ} {r q d : α}
  {m m' m₁ m₂ : μ} {n : Nat}

/-- A message to `r` brings about a message to `d`. -/
inductive Delivered (l : Links α) (relay : α → μ → Option μ) (r : α) (m : μ) : α → μ → Prop
  | root : Delivered l relay r m r m
  | route {q d : α} {m₁ m₂ : μ} (h : Delivered l relay r m q m₁) (hrelay : relay q m₁ = some m₂)
      (hd : l.Route q d) : Delivered l relay r m d m₂

/-- All messages that a message to `r` brings about, in the order in which a recursion over the
lists of destinations delivers them. -/
def deliveries (l : Links α) (relay : α → μ → Option μ) : Nat → α → μ → List (α × μ)
  | 0, _, _ => []
  | n + 1, r, m =>
    (r, m) :: match relay r m with
      | none => []
      | some m' => (l.dests r).flatMap fun d => l.deliveries relay n d m'

theorem deliveries_of_none (h : relay r m = none) :
    l.deliveries relay (n + 1) r m = [(r, m)] := by
  unfold deliveries
  rw [h]

theorem deliveries_of_some (h : relay r m = some m') :
    l.deliveries relay (n + 1) r m
      = (r, m) :: (l.dests r).flatMap fun d => l.deliveries relay n d m' := by
  conv_lhs => unfold deliveries
  rw [h]

theorem Delivered.under (h : l.Delivered relay r m d m') : l.Under r d := by
  induction h with
  | root => exact Under.refl l r
  | route _ _ hd ih => exact ih.tail hd

theorem Delivered.head (h : l.Delivered relay q m₁ d m₂) (hrelay : relay r m = some m₁)
    (hq : l.Route r q) : l.Delivered relay r m d m₂ := by
  induction h with
  | root => exact .route .root hrelay hq
  | route _ hrelay' hd ih => exact .route ih hrelay' hd

/-- The first step of a message. -/
theorem delivered_cases (h : l.Delivered relay r m d m₂) :
    (d = r ∧ m₂ = m) ∨
      ∃ q m₁, relay r m = some m₁ ∧ l.Route r q ∧ l.Delivered relay q m₁ d m₂ := by
  induction h with
  | root => exact .inl ⟨rfl, rfl⟩
  | @route q d m₁ m₂ h hrelay hd ih =>
    rcases ih with ⟨rfl, rfl⟩ | ⟨q', m', hrelay', hq', h'⟩
    · exact .inr ⟨d, m₂, hrelay, hd, .root⟩
    · exact .inr ⟨q', m', hrelay', hq', .route h' hrelay hd⟩

theorem deliveries_under [DecidableEq α] (hcons : l.Consistent)
    (h : (d, m') ∈ l.deliveries relay n r m) : l.Delivered relay r m d m' := by
  induction n generalizing r m with
  | zero => cases h
  | succ n ih =>
    rcases List.mem_cons.mp h with heq | h
    · cases heq
      exact .root
    · split at h
      · cases h
      · next m₁ hrelay =>
        obtain ⟨q, hq, h⟩ := List.mem_flatMap.mp h
        exact (ih h).head hrelay (hcons.mem_iff.mp hq)

/-- The recursion delivers just the messages that the first one brings about. -/
theorem mem_deliveries [DecidableEq α] (hcons : l.Consistent) (hw : l.Within n r) :
    (d, m') ∈ l.deliveries relay n r m ↔ l.Delivered relay r m d m' := by
  refine ⟨deliveries_under hcons, fun h => ?_⟩
  induction n generalizing r m with
  | zero => exact hw.elim
  | succ n ih =>
    rcases delivered_cases h with ⟨rfl, rfl⟩ | ⟨q, m₁, hrelay, hq, h⟩
    · exact List.mem_cons_self
    · refine List.mem_cons_of_mem _ ?_
      have hmem := hcons.mem_iff.mpr hq
      simp only [hrelay]
      exact List.mem_flatMap.mpr ⟨q, hmem, ih (hw q hmem) h⟩

/-- Without loops nothing gets two messages, as nothing has two sources. -/
theorem nodup_deliveries [DecidableEq α] (hcons : l.Consistent) (hacyclic : l.Acyclic) (n : Nat)
    (r : α) (m : μ) : ((l.deliveries relay n r m).map Prod.fst).Nodup := by
  induction n generalizing r m with
  | zero => exact List.nodup_nil
  | succ n ih =>
    have hbelow : ∀ {m₁ d q}, d ∈ l.dests r → q ∈ (l.deliveries relay n d m₁).map Prod.fst →
        l.Route r d ∧ l.Under d q := by
      intro m₁ d q hd hq
      obtain ⟨⟨q', m'⟩, hmem, rfl⟩ := List.mem_map.mp hq
      exact ⟨hcons.mem_iff.mp hd, (deliveries_under hcons hmem).under⟩
    unfold deliveries
    rw [List.map_cons, List.nodup_cons]
    cases relay r m with
    | none => simp
    | some m₁ =>
      dsimp only
      rw [List.map_flatMap]
      refine ⟨fun hr => ?_, ?_⟩
      · obtain ⟨d, hd, hr⟩ := List.mem_flatMap.mp hr
        obtain ⟨hroute, hunder⟩ := hbelow hd hr
        exact hacyclic.not_under hroute hunder
      · refine List.nodup_flatMap.mpr ⟨fun d _ => ih d m₁, ?_⟩
        refine (hcons.nodup r).imp_of_mem ?_
        intro d d' hd hd' hne q hq hq'
        obtain ⟨hroute, hunder⟩ := hbelow hd hq
        obtain ⟨hroute', hunder'⟩ := hbelow hd' hq'
        exact hacyclic.disjoint hroute hroute' hne hunder hunder'

/-- What is delivered below `r` depends on the nodes below `r` only. -/
theorem deliveries_congr [DecidableEq α] (hcons : l.Consistent)
    (h : ∀ q m, l.Under r q → relay' q m = relay q m) :
    l.deliveries relay' n r m = l.deliveries relay n r m := by
  induction n generalizing r m with
  | zero => rfl
  | succ n ih =>
    unfold deliveries
    rw [h r m (.refl l r)]
    cases relay r m with
    | none => rfl
    | some m₁ =>
      refine congrArg _ (List.flatMap_congr fun d hd => ih fun q m hq => ?_)
      exact h q m (hq.route (hcons.mem_iff.mp hd))

theorem Delivered.congr (hd : l.Delivered relay r m d m')
    (h : ∀ q m, l.Under r q → relay' q m = relay q m) : l.Delivered relay' r m d m' := by
  induction hd with
  | root => exact .root
  | route hq hrelay hroute ih => exact .route ih ((h _ _ hq.under).trans hrelay) hroute

end MangOH.Links
