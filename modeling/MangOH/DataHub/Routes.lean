import MangOH.DataHub.Invariants

/-! The functions that change routes, as changes of the links between resources. -/
namespace MangOH.DataHub

open Outcome

variable {P : Platform} {h h' : Hub} {r dest src : ResRef} {e : EntryRef} {x y : Resource}
  {et : EntryType} {entry : Entry}

/-! ### One resource -/

theorem links_congr (hr : h'.resources = h.resources) : h'.links = h.links := by
  unfold Hub.links
  rw [hr]

theorem links_setResource (h : Hub) (r : ResRef) (x : Resource) :
    (h.setResource r x).links =
      ⟨Function.update h.links.src r x.srcPtr, Function.update h.links.dests r x.destList⟩ := by
  unfold Hub.links Hub.setResource
  congr 1
  · funext q
    by_cases hq : q = r
    · subst hq
      simp
    · simp [hq]
  · funext q
    by_cases hq : q = r
    · subst hq
      simp
    · simp [hq]

theorem src_of_resource (hx : h.resources r = some x) : h.links.src r = x.srcPtr := by
  simp [Hub.links, hx]

theorem dests_of_resource (hx : h.resources r = some x) : h.links.dests r = x.destList := by
  simp [Hub.links, hx]

/-- A change of a resource that leaves both ends of its routes alone. -/
theorem links_sameEnds (hx : h.resources r = some x) (hsrc : y.srcPtr = x.srcPtr)
    (hdest : y.destList = x.destList) : (h.setResource r y).links = h.links := by
  rw [links_setResource, hsrc, hdest, ← src_of_resource hx, ← dests_of_resource hx,
    Function.update_eq_self, Function.update_eq_self]

theorem links_setDests {g : List ResRef → List ResRef}
    (hm : h.modifyResource r (fun x => { x with destList := g x.destList }) = .ok h') :
    h'.links = ⟨h.links.src, Function.update h.links.dests r (g (h.links.dests r))⟩ := by
  obtain ⟨x, hx, rfl⟩ := modifyResource_ok.mp hm
  rw [links_setResource, ← src_of_resource hx, Function.update_eq_self, dests_of_resource hx]

theorem links_setSrc {src : Option ResRef}
    (hm : h.modifyResource r (fun x => { x with srcPtr := src }) = .ok h') :
    h'.links = ⟨Function.update h.links.src r src, h.links.dests⟩ := by
  obtain ⟨x, hx, rfl⟩ := modifyResource_ok.mp hm
  rw [links_setResource, ← dests_of_resource hx, Function.update_eq_self]

/-! ### Routes -/

theorem links_unlinkSource (h : Hub) (dest : ResRef) :
    Returns (unlinkSource h dest) fun h' => h'.links = h.links.unlink dest := by
  refine Returns.of_ok fun h' hu => ?_
  unfold unlinkSource at hu
  obtain ⟨d, hd, hu⟩ := bind_eq_ok.mp hu
  have hsrc := src_of_resource (getResource_ok.mp hd)
  unfold Links.unlink
  rw [hsrc]
  split at hu
  · next hnone =>
    cases hu
    rw [hnone]
  · next s hs =>
    obtain ⟨h₁, hu₁, hu₂⟩ := bind_eq_ok.mp hu
    have hl₁ := links_setDests (g := fun l => l.erase dest) hu₁
    rw [links_setSrc hu₂, hl₁, hs]

theorem links_linkSource (h : Hub) (dest src : ResRef) :
    Returns (linkSource h dest src) fun h' => h'.links = h.links.link dest src := by
  refine Returns.of_ok fun h' hl => ?_
  obtain ⟨h₁, hl₁, hl₂⟩ := bind_eq_ok.mp hl
  have hlinks := links_setDests (g := fun l => l ++ [dest]) hl₁
  rw [links_setSrc hl₂, hlinks]
  rfl

theorem links_moveSource (h : Hub) (src dest : ResRef) (hne : src ≠ dest) :
    Returns (moveSource h src dest) fun h' => h'.links = h.links.moveIn src dest := by
  refine Returns.of_ok fun h' hm => ?_
  unfold moveSource at hm
  obtain ⟨x, hx, hm⟩ := bind_eq_ok.mp hm
  have hsrc := src_of_resource (getResource_ok.mp hx)
  unfold Links.moveIn
  rw [hsrc]
  split at hm
  · next hnone =>
    cases hm
    rw [hnone]
  · next s hs =>
    obtain ⟨h₁, hm₁, hm⟩ := bind_eq_ok.mp hm
    obtain ⟨h₂, hm₂, hm₃⟩ := bind_eq_ok.mp hm
    have hl₃ := links_setDests (g := fun l => l.erase src ++ [dest]) hm₃
    rw [hl₃, links_setSrc hm₂, links_setSrc hm₁, hs]
    simp only [Links.link, Links.unlink, hsrc, hs, Function.update_self, Function.update_idem]
    rw [Function.update_comm hne.symm]

theorem links_moveDests (hne : src ≠ dest) (dests : List ResRef) (hc : h.links.Consistent)
    (hdests : h.links.dests src = dests) :
    Returns (moveDests src dest h dests) fun h' => h'.links = h.links.redirect src dest dests := by
  induction dests generalizing h with
  | nil => exact rfl
  | cons d rest ih =>
    unfold moveDests
    refine Returns.of_ok fun h' hm => ?_
    obtain ⟨h₁, hm₁, hm⟩ := bind_eq_ok.mp hm
    obtain ⟨h₂, hm₂, hm⟩ := bind_eq_ok.mp hm
    obtain ⟨h₃, hm₃, hm⟩ := bind_eq_ok.mp hm
    have hsrc : h.links.src d = some src := hc.mem_iff.mp (by simp [hdests])
    have hl₁ := links_setDests (g := fun _ => rest) hm₁
    have hl₂ := links_setDests (g := fun l => l ++ [d]) hm₂
    have hl₃ : h₃.links = (h.links.unlink d).link d dest := by
      rw [links_setSrc hm₃, hl₂, hl₁]
      simp [Links.link, Links.unlink, hsrc, hdests]
    have hnone : (h.links.unlink d).src d = none := by simp [Links.src_unlink]
    have hc₃ : h₃.links.Consistent := by
      rw [hl₃]
      exact (hc.unlink d).link hnone dest
    have hrest : h₃.links.dests src = rest := by
      have hother : ((h.links.unlink d).link d dest).dests src = (h.links.unlink d).dests src :=
        Function.update_of_ne hne ..
      rw [hl₃, hother, Links.dests_unlink_same _ hsrc, hdests, List.erase_cons_head]
    rw [(ih hc₃ hrest).result hm, hl₃]
    rfl

theorem ends_moveValues (x y : Resource) (et : EntryType) :
    (moveValues P x y et).srcPtr = y.srcPtr ∧ (moveValues P x y et).destList = y.destList := by
  unfold moveValues
  dsimp only
  split
  · split <;> exact ⟨rfl, rfl⟩
  · exact ⟨rfl, rfl⟩

/-- All routes of a resource are moved to a new one. -/
theorem links_moveAdminSettings (hc : h.links.Consistent) (hne : src ≠ dest)
    (hfree : h.links.src dest = none) (et : EntryType) :
    Returns (resMoveAdminSettings P h src dest et) fun h' =>
      h'.links = h.links.takeOver src dest := by
  refine Returns.of_ok fun h' hm => ?_
  unfold resMoveAdminSettings at hm
  obtain ⟨s, hs, hm⟩ := bind_eq_ok.mp hm
  obtain ⟨d, hd, hm⟩ := bind_eq_ok.mp hm
  obtain ⟨h₁, hm₁, hm⟩ := bind_eq_ok.mp hm
  obtain ⟨s₁, hs₁, hm⟩ := bind_eq_ok.mp hm
  rw [getResource_ok] at hs hd hs₁
  have hd' : (h.setResource src s.emptied).resources dest = some d := by
    simpa [Hub.setResource, hne.symm] using hd
  obtain ⟨hsrc, hdest⟩ := ends_moveValues (P := P) s d et
  have hl₀ := (links_sameEnds hd' hsrc hdest).trans
    (links_sameEnds (y := s.emptied) hs rfl rfl)
  have hl₁ := (links_moveSource _ src dest hne).result hm₁
  rw [hl₀] at hl₁
  have hc₁ : h₁.links.Consistent := by
    rw [hl₁]
    exact hc.moveIn hne hfree
  rw [(links_moveDests hne s₁.destList hc₁ (dests_of_resource hs₁)).result hm, hl₁]
  unfold Links.takeOver
  rw [← hl₁, dests_of_resource hs₁]

/-! ### Resources that come and go -/

theorem links_freeResource (hsrc : h.links.src r = none) (hdests : h.links.dests r = []) :
    (h.freeResource r).links = h.links := by
  unfold Hub.links Hub.freeResource at *
  congr 1
  · funext q
    by_cases hq : q = r
    · subst hq
      simpa using hsrc.symm
    · simp [hq]
  · funext q
    by_cases hq : q = r
    · subst hq
      simpa using hdests.symm
    · simp [hq]

/-- A new resource has no routes. -/
theorem links_created (hwf : WellFormed h) (hy : Created P e et y) :
    (h.setResource h.nextRes y).links = h.links := by
  have hnone := hwf.fresh
  have hsrc : y.srcPtr = h.links.src h.nextRes := by
    cases hy <;> simp [Hub.links, hnone] <;> rfl
  have hdest : y.destList = h.links.dests h.nextRes := by
    cases hy <;> simp [Hub.links, hnone] <;> rfl
  rw [links_setResource, hsrc, hdest, Function.update_eq_self, Function.update_eq_self]

theorem WellFormed.src_ne_nextRes (hwf : WellFormed h) (d : ResRef) :
    h.links.src d ≠ some h.nextRes := by
  intro hd
  have hmem := hwf.routes.mem_iff.mpr hd
  simp [Hub.links, hwf.fresh] at hmem

theorem WellFormed.src_nextRes (hwf : WellFormed h) : h.links.src h.nextRes = none := by
  simp [Hub.links, hwf.fresh]

theorem exists_of_route (hwf : WellFormed h) {s d : ResRef} (hr : h.links.Route s d) :
    (∃ x, h.resources s = some x) ∧ ∃ y, h.resources d = some y := by
  constructor
  · have hmem := hwf.routes.mem_iff.mpr hr
    cases hs : h.resources s with
    | none => simp [Hub.links, hs] at hmem
    | some x => exact ⟨x, rfl⟩
  · cases hd : h.resources d with
    | none => simp [Links.Route, Hub.links, hd] at hr
    | some y => exact ⟨y, rfl⟩

theorem links_moveToCreated (hwf : WellFormed h) (hy : Created P e et y) {old : ResRef}
    (hne : old ≠ h.nextRes) (event : Event) :
    Returns (resMoveAdminSettings P
      (({ h.setResource h.nextRes y with nextRes := h.nextRes + 1 } : Hub).emit event)
      old h.nextRes et) fun h' => h'.links = h.links.takeOver old h.nextRes := by
  have hnew : (({ h.setResource h.nextRes y with nextRes := h.nextRes + 1 } : Hub).emit event).links
      = h.links := links_created hwf hy
  rw [← hnew]
  refine links_moveAdminSettings ?_ hne ?_ et
  · rw [hnew]
    exact hwf.routes
  · rw [hnew]
    exact hwf.src_nextRes

/-- A new resource takes the place of the one that its entry has had so far, if any. -/
theorem links_replaceResource (hwf : WellFormed h) (hy : Created P e et y)
    (he : h.entries e = some entry) :
    Returns (replaceResource P h e y et) fun p =>
      (entry.resourcePtr = none → p.1.links = h.links) ∧
      ∀ old, entry.resourcePtr = some old → p.1.links = h.links.takeOver old h.nextRes := by
  refine Returns.of_ok fun p hr => ?_
  unfold replaceResource at hr
  obtain ⟨entry', he', hr⟩ := bind_eq_ok.mp hr
  cases he.symm.trans (getEntry_ok.mp he')
  obtain ⟨h₁, hd, hr⟩ := bind_eq_ok.mp hr
  obtain ⟨h₂, hm, hr⟩ := bind_eq_ok.mp hr
  cases hr
  obtain ⟨_, _, rfl⟩ := modifyEntry_ok.mp hm
  have hnew := links_created hwf hy
  unfold replaceResource.dispose at hd
  split at hd
  · next hnone =>
    cases hd
    exact ⟨fun _ => hnew, by simp [hnone]⟩
  · next old hold =>
    refine ⟨by simp [hold], ?_⟩
    rintro _ hold'
    cases hold.symm.trans hold'
    obtain ⟨x, hx, hd⟩ := bind_eq_ok.mp hd
    obtain ⟨h₃, hmove, hrel⟩ := bind_eq_ok.mp hd
    obtain ⟨x', hx', _⟩ := hwf.resourceOf e entry old he hold
    have hne := hwf.ne_nextRes hx'
    have hmoved := (links_moveToCreated hwf hy hne _).result hmove
    obtain ⟨z, _, hz, hsrc, hdest, hsame, _⟩ := (releaseResource_frame _ _).result hrel
    have hres : h₁.resources = (h₃.freeResource old).resources := hsame.resources
    show h₁.links = _
    rw [links_congr hres, links_freeResource
      ((src_of_resource hz).trans hsrc) ((dests_of_resource hz).trans hdest), hmoved]

/-- What an atomic change does to the routes. -/
inductive Rerouted (h h' : Hub) : Prop
  | same (hl : h'.links = h.links)
  | unlink (d : ResRef) (hl : h'.links = h.links.unlink d)
  | link (d s : ResRef) (fuel : Nat) (hnone : h.links.src d = none)
      (hloop : canGetThereFromHere h s fuel d = .ok false) (hlog : .routing d s ∈ h'.log)
      (hl : h'.links = h.links.link d s)
  | takeOver (a b : ResRef) (hne : a ≠ b) (hfree : h.links.src b = none)
      (hout : ∀ q, h.links.src q ≠ some b) (hl : h'.links = h.links.takeOver a b)

theorem rerouted_micro (hwf : WellFormed h) (hm : Micro P h h') : Rerouted h h' := by
  cases hm with
  | ambient hsame => exact .same (links_congr hsame.resources)
  | startUpdate => exact .same rfl
  | endUpdate => exact .same rfl
  | edit hx he hedit hreads hsame =>
    have hp := hedit.samePlace
    exact .same ((links_congr hsame.resources).trans (links_sameEnds hx hp.srcPtr hp.destList))
  | @addHandler r x hx t =>
    exact .same (links_sameEnds (y := { x with pushHandlerList := _ }) hx rfl rfl)
  | @removeHandler p handler x hp hx =>
    exact .same (links_sameEnds (y := { x with pushHandlerList := _ }) hx rfl rfl)
  | unlink dest hu => exact .unlink dest ((links_unlinkSource h dest).result hu)
  | link dest src fuel hd hnone hloop hl =>
    have hlog := ((routesOnly_linkSource _ dest src).result hl).log
    exact .link dest src fuel ((src_of_resource hd).trans hnone) hloop (by simp [hlog, Hub.emit])
      ((links_linkSource (h.emit (.routing dest src)) dest src).result hl)
  | addChild parent name ha =>
    obtain ⟨_, _, _, hh⟩ := (addChild_frame h parent name).result ha
    dsimp only at hh
    exact .same (links_congr (by rw [hh]))
  | @replace _ e r entry et y he hre hy hr =>
    obtain ⟨hnone, hold⟩ := (links_replaceResource hwf hy he).result hr
    cases hptr : entry.resourcePtr with
    | none => exact .same (hnone hptr)
    | some old =>
      obtain ⟨x, hx, _⟩ := hwf.resourceOf e entry old he hptr
      exact .takeOver old h.nextRes (hwf.ne_nextRes hx) hwf.src_nextRes hwf.src_ne_nextRes
        (hold old hptr)
  | @remove _ _ r x entry evs hx he hsrc hdest hsame hlog hfreed hrel =>
    have hres := ((releaseEntry_frame _ _ _).result hrel).resources.trans hsame.resources
    refine .same ?_
    rw [links_congr (h := h.freeResource r) hres]
    exact links_freeResource ((src_of_resource hx).trans hsrc) ((dests_of_resource hx).trans hdest)

theorem Rerouted.consistent (hs : Rerouted h h') (hc : h.links.Consistent) :
    h'.links.Consistent := by
  cases hs with
  | same hl => exact hl ▸ hc
  | unlink d hl => exact hl ▸ hc.unlink d
  | link d s fuel hnone hloop hlog hl => exact hl ▸ hc.link hnone s
  | takeOver a b hne hfree hout hl => exact hl ▸ (Links.takeOver_spec hc hne hfree).1

end MangOH.DataHub
