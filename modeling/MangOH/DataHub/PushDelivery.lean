import MangOH.DataHub.HandlerLists
import MangOH.Lib.Relay

/-! One push and all the pushes that it brings about: each is a message that resources pass on along
their routes. -/
namespace MangOH.DataHub

open Outcome Links

variable {P : Platform} {b h h' g g' : Hub} {r q d : ResRef} {x y : Resource} {t t' : DataType}
  {u : CString} {s s' : DataSample} {entry : Entry} {B : Fault → Prop} {n : Nat} {et : EntryType}

/-- What `res_Push` is called with. -/
structure PushArgs where
  dataType : DataType
  units : CString
  sample : DataSample

/-- What a resource hands on when it is pushed to: the value that it makes its current one. -/
def Hub.relay (P : Platform) (h : Hub) (r : ResRef) (m : PushArgs) : Option PushArgs := do
  let x ← h.resources r
  let entry ← h.entries x.entryRef
  match resPushLocal P (obsContext h x) entry.type x m.dataType m.units m.sample with
  | .error _ => none
  | .ok pushed => do
    let (dataType, s) ← pushed.sample
    if pushed.res.acceptable dataType then some ⟨dataType, pushed.res.units, s⟩ else none

/-- The call of `res_Push` that an event records. -/
def Event.pushCall : Event → Option (ResRef × PushArgs)
  | .pushing r _ _ dataType units s => some (r, ⟨dataType, units, s⟩)
  | _ => none

def Hub.pushCalls (h : Hub) : List (ResRef × PushArgs) := h.log.filterMap Event.pushCall

/-- Two states that agree on all but values, Observations and the log. -/
structure SameRoutes (h h' : Hub) : Prop where
  entries : h'.entries = h.entries
  env : h'.env = h.env
  links : h'.links = h.links
  listed : h'.listed = h.listed
  handlers : h'.handlers = h.handlers

theorem SameRoutes.refl (h : Hub) : SameRoutes h h := ⟨rfl, rfl, rfl, rfl, rfl⟩

theorem SameRoutes.trans {h'' : Hub} (a : SameRoutes h h') (b : SameRoutes h' h'') :
    SameRoutes h h'' :=
  ⟨b.entries.trans a.entries, b.env.trans a.env, b.links.trans a.links, b.listed.trans a.listed,
    b.handlers.trans a.handlers⟩

theorem relay_congr (hs : SameRoutes h h') (hq : h'.resources q = h.resources q) (m : PushArgs) :
    h'.relay P q m = h.relay P q m := by
  unfold Hub.relay
  rw [hq, hs.entries]
  have hctx : ∀ x, obsContext h' x = obsContext h x := by
    intro x
    unfold obsContext
    rw [hs.env, obsPathOf_congr hs.entries]
  simp only [hctx]

/-! ### Handlers that are called -/

theorem handlerCallAll_live (r : ResRef) {list : List HandlerRef}
    (hlive : ∀ p ∈ list, h.handlers p ≠ none) (hs : s.type = t) :
    ∃ calls, Notes P h calls ∧
      handlerCallAll P (h.emit (.notifying r (h.registered list) s)) list t s =
        .ok { h with log := h.log ++ calls } := by
  refine ⟨_, .update r list s, ?_⟩
  rcases handlerCallAll_eq (P := P) list (h.emit (.notifying r (h.registered list) s)) hs with
    ⟨_, hall⟩ | ⟨⟨p, hp, hnone⟩, _⟩
  · rw [hall, List.append_cons]
    rfl
  · exact absurd hnone (hlive p hp)

theorem pushCall_note {e : Event} (hn : Note e) : e.pushCall = none := by
  cases hn <;> rfl

theorem pushCalls_append (evs : List Event) (hlog : h'.log = h.log ++ evs) :
    h'.pushCalls = h.pushCalls ++ evs.filterMap Event.pushCall := by
  unfold Hub.pushCalls
  rw [hlog, List.filterMap_append]

theorem pushCalls_quiet (evs : List Event) (hno : ∀ e ∈ evs, e.pushCall = none)
    (hlog : h'.log = h.log ++ evs) : h'.pushCalls = h.pushCalls := by
  rw [pushCalls_append evs hlog, List.filterMap_eq_nil_iff.mpr hno, List.append_nil]

/-! ### The resource that is pushed to -/

/-- What a push to `r` changes: the resources below it, and each of those once. -/
structure PushedTo (P : Platform) (b h : Hub) (n : Nat) (r : ResRef) (m : PushArgs) (h' : Hub) :
    Prop where
  ext : Steps P b h'
  same : SameRoutes h h'
  outside : ∀ q, ¬ h.links.Under r q → h'.resources q = h.resources q
  calls : h'.pushCalls = h.pushCalls ++ h.links.deliveries (h.relay P) n r m
  current : ∀ q m₁ m₂, h.links.Delivered (h.relay P) r m q m₁ → h.relay P q m₁ = some m₂ →
    ∃ y, h'.resources q = some y ∧ y.currentType = m₂.dataType ∧ y.units = m₂.units ∧
      y.currentValue = some m₂.sample

/-- The same, of a sequence of pushes to different destinations of one resource. -/
structure PushedToAll (P : Platform) (b h : Hub) (n : Nat) (dests : List ResRef) (m : PushArgs)
    (h' : Hub) : Prop where
  ext : Steps P b h'
  same : SameRoutes h h'
  outside : ∀ q, (∀ d ∈ dests, ¬ h.links.Under d q) → h'.resources q = h.resources q
  calls : h'.pushCalls =
    h.pushCalls ++ dests.flatMap fun d => h.links.deliveries (h.relay P) n d m
  current : ∀ d ∈ dests, ∀ q m₁ m₂, h.links.Delivered (h.relay P) d m q m₁ →
    h.relay P q m₁ = some m₂ → ∃ y, h'.resources q = some y ∧ y.currentType = m₂.dataType ∧
      y.units = m₂.units ∧ y.currentValue = some m₂.sample

/-- Pushes to different destinations do not meet. -/
theorem PushedTo.cons {dests : List ResRef} {m : PushArgs} (hd : PushedTo P b h n d m g)
    (hdests : PushedToAll P b g n dests m h') (hcons : h.links.Consistent)
    (hapart : ∀ d' ∈ dests, ∀ q, h.links.Under d q → ¬ h.links.Under d' q) :
    PushedToAll P b h n (d :: dests) m h' := by
  have hlinks := hd.same.links
  have hrelay : ∀ d' ∈ dests, ∀ q m₁, h.links.Under d' q → g.relay P q m₁ = h.relay P q m₁ := by
    intro d' hd' q m₁ hq
    exact relay_congr hd.same (hd.outside q fun hq' => hapart d' hd' q hq' hq) m₁
  refine ⟨hdests.ext, hd.same.trans hdests.same, ?_, ?_, ?_⟩
  · intro q hq
    rw [hdests.outside q, hd.outside q (hq d List.mem_cons_self)]
    rw [hlinks]
    exact fun d' hd' => hq d' (List.mem_cons_of_mem _ hd')
  · rw [hdests.calls, hd.calls, List.append_assoc, List.flatMap_cons, hlinks]
    congr 2
    exact List.flatMap_congr fun d' hd' => deliveries_congr hcons (hrelay d' hd')
  · intro d' hd' q m₁ m₂ hq hm
    rcases List.mem_cons.mp hd' with rfl | hd'
    · obtain ⟨y, hy, hcur⟩ := hd.current q m₁ m₂ hq hm
      refine ⟨y, ?_, hcur⟩
      rw [hdests.outside q, hy]
      rw [hlinks]
      exact fun d'' hd'' => hapart d'' hd'' q hq.under
    · refine hdests.current d' hd' q m₁ m₂ ?_ ((hrelay d' hd' q m₁ hq.under).trans hm)
      rw [hlinks]
      exact hq.congr (hrelay d' hd')

/-- The hub once a push has logged what it does to the resource itself. -/
def Hub.startPush (h : Hub) (r : ResRef) (et : EntryType) (x : Resource) (t : DataType)
    (u : CString) (s : DataSample) (evs : List ObsEvent) : Hub :=
  ((h.emit (.receiving r et s)).emit (.pushing r (obsContext h x) x t u s)).emitObs r evs

/-- What `res_Push` does to the resource itself, before it goes on to the destinations. -/
theorem sameRoutes_startPush {evs : List ObsEvent} (hx : h.resources r = some x)
    (hp : SamePlace x y) :
    SameRoutes h ((h.startPush r et x t u s evs).setResource r y) := by
  refine ⟨rfl, rfl, ?_, ?_, rfl⟩
  · exact links_sameEnds (h := h.startPush r et x t u s evs) hx hp.srcPtr hp.destList
  · exact listed_same (h := h.startPush r et x t u s evs) hx hp.pushHandlerList

/-- The hub once the resource has accepted a value. -/
def Hub.accepted (h : Hub) (r : ResRef) (et : EntryType) (y : Resource) (t : DataType)
    (s : DataSample) : Hub :=
  (h.setResource r (y.install t s)).emit (.accepting r et y.pushHandlerList s)

theorem log_startPush (evs : List ObsEvent) :
    (h.startPush r et x t u s evs).log = h.log ++
      .receiving r et s :: .pushing r (obsContext h x) x t u s :: evs.map (.obs r) := by
  simp [Hub.startPush, Hub.emitObs, Hub.emit]

theorem pushCalls_startPush (evs : List ObsEvent) (y : Resource) :
    ((h.startPush r et x t u s evs).setResource r y).pushCalls
      = h.pushCalls ++ [(r, ⟨t, u, s⟩)] := by
  refine (pushCalls_append (h := h) _ (log_startPush evs)).trans ?_
  have hobs : (evs.map (Event.obs r)).filterMap Event.pushCall = [] := by
    refine List.filterMap_eq_nil_iff.mpr fun e he => ?_
    obtain ⟨ev, _, rfl⟩ := List.mem_map.mp he
    rfl
  rw [List.filterMap_cons_none (f := Event.pushCall) rfl,
    List.filterMap_cons_some (f := Event.pushCall) rfl, hobs]

/-- A push that makes no value current ends at the resource. -/
theorem pushedTo_refused {evs : List ObsEvent} (hx : h.resources r = some x) (hp : SamePlace x y)
    (hrelay : h.relay P r ⟨t, u, s⟩ = none)
    (he : Steps P b ((h.startPush r et x t u s evs).setResource r y)) :
    PushedTo P b h (n + 1) r ⟨t, u, s⟩ ((h.startPush r et x t u s evs).setResource r y) := by
  refine ⟨he, sameRoutes_startPush hx hp, ?_, ?_, ?_⟩
  · intro q hq
    have hne : q ≠ r := by
      rintro rfl
      exact hq (.refl h.links q)
    exact Function.update_of_ne hne ..
  · rw [pushCalls_startPush, deliveries_of_none hrelay]
  · intro q m₁ m₂ hd hm
    rcases delivered_cases hd with ⟨rfl, rfl⟩ | ⟨_, _, hm', _⟩
    · rw [hrelay] at hm
      cases hm
    · rw [hrelay] at hm'
      cases hm'

/-- A push that makes a value current goes on to all destinations, and the handlers are called. -/
theorem pushedTo_installed {evs : List ObsEvent} {calls : List Event} (hwf : WellFormed h)
    (hacyclic : h.links.Acyclic) (hx : h.resources r = some x) (hp : SamePlace x y)
    (hrelay : h.relay P r ⟨t, u, s⟩ = some ⟨t', y.units, s'⟩)
    (hdests : PushedToAll P b ((h.startPush r et x t u s evs).accepted r et y t' s')
      n y.destList ⟨t', y.units, s'⟩ g)
    (he : Steps P b { g with log := g.log ++ calls }) (hcalls : Notes P g calls) :
    PushedTo P b h (n + 1) r ⟨t, u, s⟩ { g with log := g.log ++ calls } := by
  have hsame : SameRoutes h ((h.startPush r et x t u s evs).accepted r et y t' s') :=
    (sameRoutes_startPush (y := y.install t' s') hx
      ⟨hp.entryRef, hp.srcPtr, hp.destList, hp.pushHandlerList⟩).trans ⟨rfl, rfl, rfl, rfl, rfl⟩
  have hstart : ((h.startPush r et x t u s evs).accepted r et y t' s').pushCalls =
      h.pushCalls ++ [(r, ⟨t, u, s⟩)] := by
    refine (pushCalls_quiet [_] ?_ rfl).trans (pushCalls_startPush evs _)
    simp [Event.pushCall]
  generalize hh₂ : (h.startPush r et x t u s evs).accepted r et y t' s' = h₂
    at hdests hsame hstart
  have hother : ∀ q, q ≠ r → h₂.resources q = h.resources q := by
    intro q hq
    rw [← hh₂]
    exact Function.update_of_ne hq ..
  have hdest : y.destList = h.links.dests r := hp.destList.trans (dests_of_resource hx).symm
  have hroute : ∀ {d}, d ∈ y.destList → h.links.Route r d := by
    intro d hd
    exact hwf.routes.mem_iff.mp (hdest ▸ hd)
  have hbelow : ∀ {d q}, d ∈ y.destList → h.links.Under d q → q ≠ r := by
    rintro d q hd hq rfl
    exact hacyclic.not_under (hroute hd) hq
  have hrelay₂ : ∀ d ∈ y.destList, ∀ q m₁, h.links.Under d q →
      h₂.relay P q m₁ = h.relay P q m₁ :=
    fun d hd q m₁ hq => relay_congr hsame (hother q (hbelow hd hq)) m₁
  have hr : g.resources r = some (y.install t' s') := by
    rw [hdests.outside r]
    · rw [← hh₂]
      exact Function.update_self ..
    · rw [hsame.links]
      exact fun d hd hq => hbelow hd hq rfl
  have hquiet : ({ g with log := g.log ++ calls } : Hub).pushCalls = g.pushCalls :=
    pushCalls_quiet _ (fun e hmem => pushCall_note (hcalls.note e hmem)) rfl
  refine ⟨he, hsame.trans (hdests.same.trans ⟨rfl, rfl, rfl, rfl, rfl⟩), ?_, ?_, ?_⟩
  · intro q hq
    have hne : q ≠ r := by
      rintro rfl
      exact hq (.refl h.links q)
    refine (hdests.outside q ?_).trans (hother q hne)
    rw [hsame.links]
    exact fun d hd hunder => hq (hunder.route (hroute hd))
  · rw [hquiet, hdests.calls, hstart, List.append_assoc,
      deliveries_of_some hrelay, hsame.links, List.singleton_append, ← hdest]
    congr 2
    exact List.flatMap_congr fun d hd => deliveries_congr hwf.routes (hrelay₂ d hd)
  · intro q m₁ m₂ hd hm
    rcases delivered_cases hd with ⟨rfl, rfl⟩ | ⟨d, m', hm', hd', hq⟩
    · rw [hrelay] at hm
      cases hm
      exact ⟨_, hr, rfl, rfl, rfl⟩
    · rw [hrelay] at hm'
      cases hm'
      have hmem : d ∈ y.destList := hdest ▸ hwf.routes.mem_iff.mpr hd'
      refine hdests.current d hmem q m₁ m₂ ?_ ((hrelay₂ d hmem q m₁ hq.under).trans hm)
      rw [hsame.links]
      exact hq.congr (hrelay₂ d hmem)

/-! ### The recursion -/

/-- What is known of a state in the middle of a push. -/
structure Midway (P : Platform) (b h : Hub) : Prop where
  ext : Steps P b h
  acyclic : h.links.Acyclic
  live : ∀ r, ∀ p ∈ h.listed r, h.handlers p ≠ none

theorem Midway.next (hm : Midway P b h) (he : Steps P b h') (hs : SameRoutes h h') :
    Midway P b h' := by
  refine ⟨he, hs.links ▸ hm.acyclic, ?_⟩
  rw [hs.listed, hs.handlers]
  exact hm.live

/-- Pushes to the destinations of a resource, one after the other. -/
theorem sat_pushDests {push : Hub → ResRef → DataType → CString → DataSample → Except Fault Hub}
    (hpush : ∀ h d, Midway P b h → h.links.Within n d → (∃ y, h.resources d = some y) →
      Sat B (push h d t u s) (PushedTo P b h n d ⟨t, u, s⟩))
    (hm : Midway P b h) {dests : List ResRef} (hdests : ∀ d ∈ dests, h.links.Route r d)
    (hnodup : dests.Nodup) (hw : ∀ d ∈ dests, h.links.Within n d) :
    Sat B (dests.foldlM (fun h d => push h d t u s) h) (PushedToAll P b h n dests ⟨t, u, s⟩) := by
  induction dests generalizing h with
  | nil =>
    refine ⟨hm.ext, .refl h, fun _ _ => rfl, by simp, ?_⟩
    exact fun d hd => absurd hd List.not_mem_nil
  | cons d dests ih =>
    rw [List.foldlM_cons]
    obtain ⟨hnew, hnodup⟩ := List.nodup_cons.mp hnodup
    have hd := hdests d List.mem_cons_self
    have hrest : ∀ d' ∈ dests, h.links.Route r d' :=
      fun d' hd' => hdests d' (List.mem_cons_of_mem _ hd')
    have hpushed := hpush h d hm (hw d List.mem_cons_self) (exists_of_route hm.ext.wf hd).2
    refine hpushed.bind fun g hg => ?_
    have hlinks := hg.same.links
    refine (ih (hm.next hg.ext hg.same) (hlinks ▸ hrest) hnodup ?_).mono fun g' hg' => ?_
    · rw [hlinks]
      exact fun d' hd' => hw d' (List.mem_cons_of_mem _ hd')
    · refine hg.cons hg' hm.ext.wf.routes fun d' hd' q hq => ?_
      refine hm.acyclic.disjoint hd (hrest d' hd') ?_ hq
      rintro rfl
      exact hnew hd'

/-- A push to one resource is one atomic change, up to the destinations. -/
theorem ext_accepted (he : Steps P b h) (hx : h.resources r = some x)
    (hentry : h.entries x.entryRef = some entry) (hs : s.type = t) {p : Pushed}
    (hp : PushOutcome P entry.type x u p)
    (hlocal : resPushLocal P (obsContext h x) entry.type x t u s = .ok p) :
    Steps P b ((h.startPush r entry.type x t u s p.events).setResource r p.accepted) := by
  have hreads : ∀ op ∈ p.accepted.readOps, op.id < h.nextRead := by
    rw [readOps_of_cls (cls_accepted p)]
    exact he.wf.reads_of_ids hx hp.readOps
  refine he.edit hx hentry (.push _ t u s hs p rfl hp hlocal) hreads
    ⟨rfl, rfl, rfl, rfl, Nat.le_refl _, rfl, rfl, rfl, rfl⟩ ?_
  exact log_startPush p.events

/-- What follows once the new value of a resource is known. -/
theorem sat_install {push : Hub → ResRef → DataType → CString → DataSample → Except Fault Hub}
    (hpush : ∀ h d, Midway P b h → h.links.Within n d → (∃ y, h.resources d = some y) →
      Sat B (push h d t' y.units s') (PushedTo P b h n d ⟨t', y.units, s'⟩))
    (hm : Midway P b h) (hw : h.links.Within (n + 1) r) (hx : h.resources r = some x)
    (hp : SamePlace x y) (hs' : s'.type = t') {evs : List ObsEvent}
    (hrelay : h.relay P r ⟨t, u, s⟩ = some ⟨t', y.units, s'⟩)
    (he : Steps P b ((h.startPush r et x t u s evs).accepted r et y t' s')) :
    Sat B (do
      let h ← y.destList.foldlM (fun h dest => push h dest t' y.units s')
        ((h.startPush r et x t u s evs).accepted r et y t' s')
      let h := h.emit (.notifying r (h.registered y.pushHandlerList) s')
      handlerCallAll P h y.pushHandlerList t' s') (PushedTo P b h (n + 1) r ⟨t, u, s⟩) := by
  have hwf := hm.ext.wf
  have hsame : SameRoutes h ((h.startPush r et x t u s evs).accepted r et y t' s') :=
    (sameRoutes_startPush (y := y.install t' s') hx
      ⟨hp.entryRef, hp.srcPtr, hp.destList, hp.pushHandlerList⟩).trans ⟨rfl, rfl, rfl, rfl, rfl⟩
  have hdest : y.destList = h.links.dests r := hp.destList.trans (dests_of_resource hx).symm
  have hlist : y.pushHandlerList = h.listed r :=
    hp.pushHandlerList.trans (listed_of_resource hx).symm
  refine (sat_pushDests (r := r) hpush (hm.next he hsame) ?_ ?_ ?_).bind fun g hg => ?_
  · rw [hsame.links, hdest]
    exact fun d hd => hwf.routes.mem_iff.mp hd
  · rw [hdest]
    exact hwf.routes.nodup r
  · rw [hsame.links, hdest]
    exact hw
  · have hlive : ∀ p ∈ y.pushHandlerList, g.handlers p ≠ none := by
      rw [hlist, hg.same.handlers, hsame.handlers]
      exact hm.live r
    obtain ⟨calls, hcalls, heq⟩ := handlerCallAll_live (P := P) r hlive hs'
    dsimp only
    rw [heq]
    exact pushedTo_installed hwf hm.acyclic hx hp hrelay hg (hg.ext.notes hcalls) hcalls

/-- A push that has enough fuel delivers to all resources below, and stops with no fault but that a
text does not fit a sample. -/
theorem sat_resPush_delivers (hB : B .fatal → P.Fits) (hm : Midway P b h)
    (hw : h.links.Within n r) (hr : ∃ x, h.resources r = some x) (u : CString)
    (hs : s.type = t) :
    Sat B (resPush P n h r t u s) (PushedTo P b h n r ⟨t, u, s⟩) := by
  induction n generalizing h r t u s with
  | zero => exact hw.elim
  | succ n ih =>
    obtain ⟨x, hx⟩ := hr
    have hwf := hm.ext.wf
    obtain ⟨entry, hentry, _⟩ := hwf.entryOf r x hx
    have hcls := hwf.cls r x entry hx hentry
    have htyped := hwf.typed r x entry hx hentry
    unfold resPush
    rw [getResource_ok.mpr hx]
    simp only [ok_bind, entryType_ok hentry]
    refine (sat_resPushLocal hB htyped hcls rfl hs).and_result.bind ?_
    rintro p ⟨hout, hpushed⟩
    have hplace := hout.samePlace
    have hext := ext_accepted hm.ext hx hentry hs hout hpushed
    have hrelay : h.relay P r ⟨t, u, s⟩ = p.sample.bind fun q =>
        if p.res.acceptable q.1 then some ⟨q.1, p.res.units, q.2⟩ else none := by
      simp [Hub.relay, hx, hentry, hpushed]
    unfold Pushed.accepted at hext
    have hstart : ((h.emit (.receiving r entry.type s)).emit
        (.pushing r (obsContext h x) x t u s)).emitObs r p.events =
        h.startPush r entry.type x t u s p.events := rfl
    simp only [hstart]
    split
    · next hsample =>
      rw [hsample] at hext hrelay
      exact pushedTo_refused hx hplace hrelay hext
    · next t' s' hsample =>
      rw [hsample] at hext hrelay
      dsimp only at hext
      have hs' : s'.type = t' := (hout.typed htyped).2 t' s' hsample
      unfold updateCurrentValue
      have hget : ((h.startPush r entry.type x t u s p.events).setResource r p.res).getResource r =
          .ok p.res := getResource_ok.mpr (Function.update_self ..)
      have htype : ((h.startPush r entry.type x t u s p.events).setResource r p.res).entryType
          p.res = .ok entry.type := entryType_ok (hplace.entryRef ▸ hentry)
      rw [hget]
      simp only [ok_bind, htype, isAcceptable_eq (hout.run.classOk hcls)]
      unfold Resource.accept at hext
      cases hacc : p.res.acceptable t' with
      | false =>
        rw [hacc] at hext
        simp only [Option.bind_some, hacc] at hrelay
        exact pushedTo_refused hx hplace hrelay hext
      | true =>
        rw [hacc] at hext
        simp only [Option.bind_some, hacc, if_true] at hrelay
        rw [setResource_setResource]
        refine sat_install (fun h d hm hw hd => ih hm hw hd _ hs') hm hw hx hplace hs' hrelay ?_
        exact hext.notes (.accept (x := p.res.install t' s') (Function.update_self ..)
          (hplace.entryRef ▸ hentry) s' rfl)

end MangOH.DataHub
