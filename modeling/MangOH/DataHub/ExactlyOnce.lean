import MangOH.DataHub.RouteLoops

/-! A push is delivered along routes, to each resource once. -/
namespace MangOH.DataHub

open Outcome

variable {P : Platform} {h : Hub} {r : ResRef} {x : Resource} {m : PushArgs}

/-- What the calls of `res_Push` are that a push leads to: one for each resource that can be reached
along routes whose resources accept the sample, with what its source has just made its current
value. -/
structure DeliveredOnce (P : Platform) (h : Hub) (r : ResRef) (m : PushArgs) (h' : Hub)
    (calls : List (ResRef × PushArgs)) : Prop where
  log : h'.pushCalls = h.pushCalls ++ calls
  once : (calls.map Prod.fst).Nodup
  all : ∀ d m', (d, m') ∈ calls ↔ h.links.Delivered (h.relay P) r m d m'
  installed : ∀ d m', (d, m') ∈ calls → (d = r ∧ m' = m) ∨
    ∃ q y, h.links.Route q d ∧ h'.resources q = some y ∧ y.currentType = m'.dataType ∧
      y.units = m'.units ∧ y.currentValue = some m'.sample

/-- Every push to a resource terminates, and is delivered to each resource once, if the routes have
no loop. -/
theorem push_delivered (hP : P.Fits) (hr : Reachable P h) (ha : h.links.Acyclic)
    (hx : h.resources r = some x) (hs : m.sample.type = m.dataType) :
    ∀ fuel, h.nextRes < fuel → ∃ h' calls,
      resPush P fuel h r m.dataType m.units m.sample = .ok h' ∧
      DeliveredOnce P h r m h' calls := by
  intro fuel hfuel
  have hwf := reachable_wellFormed hr
  obtain ⟨b, hm⟩ := midway_of_reachable hr ha
  have hw := hwf.within ha hfuel r
  have hpush := sat_resPush_delivers (B := fun _ => True) (fun _ => hP) hm hw ⟨x, hx⟩ m.units hs
  cases hres : resPush P fuel h r m.dataType m.units m.sample with
  | error f => exact absurd trivial (hpush.no_bad hres)
  | ok h' =>
    have hdone := hpush.result hres
    refine ⟨h', h.links.deliveries (h.relay P) fuel r m, rfl, hdone.calls,
      Links.nodup_deliveries hwf.routes ha fuel r m,
      fun d m' => Links.mem_deliveries hwf.routes hw, ?_⟩
    intro d m' hmem
    cases Links.deliveries_under hwf.routes hmem with
    | root => exact .inl ⟨rfl, rfl⟩
    | @route q d m₁ m₂ hq hrelay hroute =>
      obtain ⟨y, hy, hcur⟩ := hdone.current q m₁ m' hq hrelay
      exact .inr ⟨q, y, hroute, hy, hcur⟩

theorem push_delivered_chainRun : ∃ h, Reachable smallPlatform h ∧
    ∀ fuel, h.nextRes < fuel → ∃ h' calls,
      resPush smallPlatform fuel h 0 .numeric [] ⟨double 5, .numeric (double 7), [], 0⟩ = .ok h' ∧
      DeliveredOnce smallPlatform h 0 ⟨.numeric, [], ⟨double 5, .numeric (double 7), [], 0⟩⟩ h'
        calls := by
  have hrun : smallRunEnds chainRun (fun h =>
      (h.resources 0).isSome && h.log.all avoidsSelf) = true := by
    decide +kernel
  obtain ⟨h, hr, hp⟩ := exists_of_smallRunEnds hrun
  rw [Bool.and_eq_true] at hp
  obtain ⟨x, hx⟩ := Option.isSome_iff_exists.mp hp.1
  have hfits : smallPlatform.Fits := ⟨by simp [smallPlatform], by decide⟩
  exact ⟨h, hr,
    push_delivered (m := ⟨.numeric, [], ⟨double 5, .numeric (double 7), [], 0⟩⟩) hfits hr
    (reachable_acyclic hr (List.all_eq_true.mp hp.2)) hx rfl⟩

end MangOH.DataHub
