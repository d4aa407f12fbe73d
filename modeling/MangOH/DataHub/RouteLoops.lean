import MangOH.DataHub.PushDelivery
import MangOH.DataHub.Scenario

/-! Routes lead back to no resource they come from, as long as none is its own source, and so every
recursion along routes comes to an end. -/
namespace MangOH.DataHub

open Outcome Relation

variable {P : Platform} {h h' : Hub} {r here there : ResRef} {n fuel : Nat} {B : Fault → Prop}

/-- No resource is made its own source. -/
def avoidsSelf : Event → Bool
  | .routing dest src => dest ≠ src
  | _ => true

/-! ### The search for a loop -/

theorem anyM_eq_false {α : Type} {f : α → Except Fault Bool} {l : List α}
    (hl : l.anyM f = .ok false) : ∀ a ∈ l, f a = .ok false := by
  induction l with
  | nil => simp
  | cons a l ih =>
    rw [List.anyM_cons] at hl
    obtain ⟨found, hfound, hl⟩ := bind_eq_ok.mp hl
    cases found with
    | true => cases hl
    | false =>
      intro a' ha'
      rcases List.mem_cons.mp ha' with rfl | ha'
      · exact hfound
      · exact ih hl a' ha'

theorem sat_anyM {α : Type} {f : α → Except Fault Bool} {l : List α}
    (hf : ∀ a ∈ l, Sat B (f a) fun _ => True) : Sat B (l.anyM f) fun _ => True := by
  induction l with
  | nil => exact trivial
  | cons a l ih =>
    rw [List.anyM_cons]
    refine (hf a List.mem_cons_self).bind fun found _ => ?_
    cases found with
    | true => exact trivial
    | false => exact ih fun a' ha' => hf a' (List.mem_cons_of_mem _ ha')

/-- A search that finds nothing has been along every route from `here`. -/
theorem not_transGen_of_canGetThere (hc : h.links.Consistent)
    (hno : canGetThereFromHere h there fuel here = .ok false) :
    ¬ TransGen h.links.Route here there := by
  induction fuel generalizing here with
  | zero => cases hno
  | succ fuel ih =>
    unfold canGetThereFromHere at hno
    obtain ⟨x, hx, hany⟩ := bind_eq_ok.mp hno
    have hdests := dests_of_resource (getResource_ok.mp hx)
    intro hpath
    obtain ⟨d, hd, hrest⟩ := TransGen.head'_iff.mp hpath
    have hmem : d ∈ x.destList := hdests ▸ hc.mem_iff.mpr hd
    have hstep := anyM_eq_false hany d hmem
    by_cases hdt : d = there
    · simp [hdt, pure, Except.pure] at hstep
    · rw [if_neg hdt] at hstep
      rcases reflTransGen_iff_eq_or_transGen.mp hrest with heq | hrest
      · exact hdt heq.symm
      · exact ih hstep hrest

/-- The search comes to an end if the chains of routes from `here` are short enough. -/
theorem canGetThere_ends (hw : h.links.Within n here) :
    Sat (· = .outOfFuel) (canGetThereFromHere h there n here) fun _ => True := by
  induction n generalizing here with
  | zero => exact hw.elim
  | succ n ih =>
    unfold canGetThereFromHere
    refine Sat.bind (Q := fun x => h.resources here = some x) ?_ fun x hx => ?_
    · unfold Hub.getResource
      split
      · assumption
      · simp
    · refine sat_anyM fun d hd => ?_
      split
      · exact trivial
      · exact ih (hw d (dests_of_resource hx ▸ hd))

/-! ### The invariant -/

theorem acyclic_micro (hwf : WellFormed h) (hm : Micro P h h')
    (hok : ∀ e ∈ h'.log, avoidsSelf e = true) (ha : h.links.Acyclic) : h'.links.Acyclic := by
  cases rerouted_micro hwf hm with
  | same hl => exact hl ▸ ha
  | unlink d hl => exact hl ▸ ha.unlink d
  | link d s fuel hnone hloop hlog hl =>
    rw [hl]
    refine ha.link ?_ (not_transGen_of_canGetThere hwf.routes hloop)
    simpa [avoidsSelf] using hok _ hlog
  | takeOver a b hne hfree hout hl =>
    exact hl ▸ ha.takeOver hwf.routes hne hfree hout

theorem reachable_acyclic (hr : Reachable P h) (hok : ∀ e ∈ h.log, avoidsSelf e = true) :
    h.links.Acyclic := by
  refine reachable_induction (avoidsSelf · = true) (Q := fun h => h.links.Acyclic) ?_
    (fun _ _ hwf hm hok ha => acyclic_micro hwf hm hok ha) hr hok
  intro env files d hd
  obtain ⟨s, _, hs⟩ := TransGen.tail'_iff.mp hd
  cases hs

/-- There are no more routes in a chain than there have been resources. -/
theorem WellFormed.within (hwf : WellFormed h) (ha : h.links.Acyclic) (hfuel : h.nextRes < fuel)
    (r : ResRef) : h.links.Within fuel r := by
  have hnodes : ∀ d, h.links.src d ≠ none → d ∈ Finset.range h.nextRes := by
    intro d hd
    obtain ⟨s, hs⟩ := Option.ne_none_iff_exists'.mp hd
    obtain ⟨_, y, hy⟩ := exists_of_route hwf (show h.links.Route s d from hs)
    exact Finset.mem_range.mpr (hwf.res_lt d y hy)
  have hw := ha.within hwf.routes hnodes r
  rw [Finset.card_range] at hw
  exact hw.mono hfuel

theorem midway_of_reachable (hr : Reachable P h) (ha : h.links.Acyclic) :
    ∃ b, Midway P b h := by
  obtain ⟨env, files, he⟩ := reachable_ext hr
  refine ⟨boot env files, he.toSteps, ha, fun r p hp hnone => ?_⟩
  obtain ⟨handler, hhandler, _⟩ := (reachable_handlersHeld hr).live r p hp
  rw [hnone] at hhandler
  cases hhandler

/-- Following source pointers never comes back, and neither a push nor a search for a loop goes
deeper than the number of resources there have been. -/
structure RoutesEnd (P : Platform) (h : Hub) : Prop where
  acyclic : ∀ r, ¬ TransGen (fun d s => ∃ y, h.resources d = some y ∧ y.srcPtr = some s) r r
  push : ∀ fuel r t u s, h.nextRes < fuel → s.type = t →
    resPush P fuel h r t u s ≠ .error .outOfFuel
  search : ∀ fuel here there, h.nextRes < fuel →
    canGetThereFromHere h there fuel here ≠ .error .outOfFuel

theorem route_iff {s d : ResRef} :
    h.links.Route s d ↔ ∃ y, h.resources d = some y ∧ y.srcPtr = some s := by
  simp [Links.Route, Hub.links, Option.bind_eq_some_iff]

/-- Routes end in every state that is reached without making a resource its own source. -/
theorem routes_end (hr : Reachable P h) (hok : ∀ e ∈ h.log, avoidsSelf e = true) :
    RoutesEnd P h := by
  have ha := reachable_acyclic hr hok
  have hwf := reachable_wellFormed hr
  refine ⟨?_, ?_, ?_⟩
  · intro r hloop
    refine ha r (transGen_swap.mp (TransGen.mono ?_ r r hloop))
    exact fun d s hs => route_iff.mpr hs
  · intro fuel r t u s hfuel hs
    obtain ⟨b, hm⟩ := midway_of_reachable hr ha
    cases hx : h.resources r with
    | none =>
      cases fuel with
      | zero => exact absurd hfuel (Nat.not_lt_zero _)
      | succ fuel => simp [resPush, Hub.getResource, hx]
    | some x =>
      have hpush := sat_resPush_delivers (B := (· = .outOfFuel)) (by simp) hm
        (hwf.within ha hfuel r) ⟨x, hx⟩ u hs
      exact fun heq => hpush.no_bad heq rfl
  · intro fuel here there hfuel heq
    exact (canGetThere_ends (hwf.within ha hfuel here)).no_bad heq rfl

/-- Three resources in a row, and a route back that is refused. -/
def chainRun : List Op :=
  [.ioCreateInput 0 (ascii "x") .numeric [],
   .adminSetSource (ascii "/obs/o") (ascii "/app/a/x"),
   .adminSetSource (ascii "/obs/p") (ascii "/obs/o"),
   .adminSetSource (ascii "/app/a/x") (ascii "/obs/p")]

theorem routes_end_chainRun : ∃ h, Reachable smallPlatform h ∧
    ((h.resources 2).any fun x => x.srcPtr = some 1) = true ∧ RoutesEnd smallPlatform h := by
  have hrun : smallRunEnds chainRun (fun h =>
      ((h.resources 2).any fun x => x.srcPtr = some 1) && h.log.all avoidsSelf) = true := by
    decide +kernel
  obtain ⟨h, hr, hp⟩ := exists_of_smallRunEnds hrun
  rw [Bool.and_eq_true] at hp
  exact ⟨h, hr, hp.1, routes_end hr (List.all_eq_true.mp hp.2)⟩

/-- The search for a loop finds no way from a resource back to itself before the route is made. -/
def selfRun : List Op :=
  [.ioCreateInput 0 (ascii "x") .numeric [],
   .adminSetSource (ascii "/app/a/x") (ascii "/app/a/x")]

theorem routes_end_fails : ∃ h, Reachable smallPlatform h ∧ ¬ RoutesEnd smallPlatform h := by
  have hrun : smallRunEnds selfRun (fun h =>
      (h.resources 0).any fun x => x.srcPtr = some 0) = true := by
    decide +kernel
  obtain ⟨h, hr, hp⟩ := exists_of_smallRunEnds hrun
  obtain ⟨x, hx, hsrc⟩ := (Option.any_eq_true _ _).mp hp
  refine ⟨h, hr, fun hend => hend.acyclic 0 (.single ⟨x, hx, ?_⟩)⟩
  exact of_decide_eq_true hsrc

end MangOH.DataHub
