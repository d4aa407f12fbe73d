import MangOH.DataHub.Reachability

/-! The lists that push handlers are linked in, and the pointers back at these lists. -/
namespace MangOH.DataHub

open Outcome

variable {P : Platform} {h h' : Hub} {r a : ResRef} {x y : Resource} {p : HandlerRef}
  {handler : Handler}

/-- The handlers linked in the list of a resource. -/
def Hub.listed (h : Hub) (r : ResRef) : List HandlerRef :=
  ((h.resources r).map (·.pushHandlerList)).getD []

theorem listed_of_resource (hx : h.resources r = some x) : h.listed r = x.pushHandlerList := by
  simp [Hub.listed, hx]

theorem listed_of_none (hx : h.resources r = none) : h.listed r = [] := by
  simp [Hub.listed, hx]

theorem listed_congr (hr : h'.resources = h.resources) : h'.listed = h.listed := by
  unfold Hub.listed
  rw [hr]

theorem exists_of_listed (hp : p ∈ h.listed r) :
    ∃ x, h.resources r = some x ∧ p ∈ x.pushHandlerList := by
  cases hx : h.resources r with
  | none =>
    rw [listed_of_none hx] at hp
    cases hp
  | some x => exact ⟨x, rfl, listed_of_resource hx ▸ hp⟩

theorem listed_setResource (h : Hub) (r : ResRef) (x : Resource) :
    (h.setResource r x).listed = Function.update h.listed r x.pushHandlerList := by
  funext q
  by_cases hq : q = r
  · subst hq
    simp [Hub.listed, Hub.setResource]
  · simp [Hub.listed, Hub.setResource, hq]

theorem listed_same (hx : h.resources r = some x) (hl : y.pushHandlerList = x.pushHandlerList) :
    (h.setResource r y).listed = h.listed := by
  rw [listed_setResource, hl, ← listed_of_resource hx, Function.update_eq_self]

theorem listed_unrouted
    (hr : ∀ q, (h'.resources q).map Resource.unrouted = (h.resources q).map Resource.unrouted) :
    h'.listed = h.listed := by
  have hlist : ∀ o : Option Resource, o.map (·.pushHandlerList)
      = (o.map Resource.unrouted).map (·.pushHandlerList) := by
    intro o
    cases o <;> rfl
  funext q
  unfold Hub.listed
  rw [hlist, hr q, ← hlist]

/-! ### Atomic changes of the lists -/

/-- What an atomic change does to the lists of handlers. -/
inductive Relisted (h h' : Hub) : Prop
  | same (hl : h'.listed = h.listed) (hh : h'.handlers = h.handlers)
      (hn : h'.nextHandler = h.nextHandler)
  | add (r : ResRef) (t : DataType)
      (hl : h'.listed = Function.update h.listed r (h.listed r ++ [h.nextHandler]))
      (hh : h'.handlers = Function.update h.handlers h.nextHandler (some ⟨t, r⟩))
      (hn : h'.nextHandler = h.nextHandler + 1)
  | remove (p : HandlerRef) (handler : Handler) (hp : h.handlers p = some handler)
      (hlive : h.resources handler.listPtr ≠ none)
      (hl : h'.listed =
        Function.update h.listed handler.listPtr ((h.listed handler.listPtr).erase p))
      (hh : h'.handlers = Function.update h.handlers p none)
      (hn : h'.nextHandler = h.nextHandler)
  | move (old new : ResRef) (x : Resource) (hx : h.resources old = some x)
      (hfree : h.listed new = []) (hdead : h'.resources old = none)
      (hlog : ∃ et y, .replacing old new x et y ∈ h'.log)
      (hl : h'.listed = Function.update (Function.update h.listed old []) new (h.listed old))
      (hh : h'.handlers = h.handlers) (hn : h'.nextHandler = h.nextHandler)
  | free (r : ResRef) (hl : h'.listed = Function.update h.listed r [])
      (hh : h'.handlers = fun p => if p ∈ h.listed r then none else h.handlers p)
      (hn : h'.nextHandler = h.nextHandler)

theorem Created.pushHandlerList {e : EntryRef} {et : EntryType} (hy : Created P e et y) :
    y.pushHandlerList = [] := by
  cases hy <;> rfl

theorem pushHandlerList_moveValues (x y : Resource) (et : EntryType) :
    (moveValues P x y et).pushHandlerList = y.pushHandlerList ++ x.pushHandlerList := by
  unfold moveValues
  dsimp only
  split
  · split <;> rfl
  · rfl

theorem listed_freed (h : Hub) (r : ResRef) (x : Resource) :
    (freed h r x).listed = Function.update h.listed r [] := by
  funext q
  by_cases hq : q = r
  · subst hq
    simp [Hub.listed, freed]
  · simp [Hub.listed, freed, hq]

/-- A new resource starts without handlers. -/
theorem listed_created (hwf : WellFormed h) {e : EntryRef} {et : EntryType}
    (hy : Created P e et y) : (h.setResource h.nextRes y).listed = h.listed := by
  rw [listed_setResource, hy.pushHandlerList, ← listed_of_none hwf.fresh, Function.update_eq_self]

theorem relisted_replaced (hwf : WellFormed h) {e : EntryRef} {et : EntryType} {entry : Entry}
    (he : h.entries e = some entry) (hy : Created P e et y)
    (hr : Replaced P h e y et entry h') : Relisted h h' := by
  have hnew := listed_created hwf hy
  cases hold : entry.resourcePtr with
  | none =>
    obtain ⟨hres, _⟩ := hr.attach hold
    have hsame : h'.listed = (h.setResource h.nextRes y).listed := listed_congr hres
    exact .same (hsame.trans hnew) hr.handlers hr.nextHandler
  | some old =>
    obtain ⟨x, evs, hx, hres, hlog, _⟩ := hr.move old hold
    obtain ⟨x', hx', _⟩ := hwf.resourceOf e entry old he hold
    have hne := hwf.ne_nextRes hx'
    rw [Function.update_of_ne hne] at hx
    have hmoved : h'.listed
        = (freed (h.setResource h.nextRes (moveValues P x y et)) old x).listed :=
      listed_unrouted hres
    refine .move old h.nextRes x hx (listed_of_none hwf.fresh) ?_ ⟨et, y, by simp [hlog]⟩ ?_
      hr.handlers hr.nextHandler
    · have hq := hres old
      rw [Function.update_self] at hq
      exact Option.map_eq_none_iff.mp hq
    · rw [hmoved, listed_freed, listed_setResource, pushHandlerList_moveValues,
        hy.pushHandlerList, List.nil_append, listed_of_resource hx, Function.update_comm hne.symm]

theorem relisted_micro (hwf : WellFormed h) (hm : Micro P h h') : Relisted h h' := by
  cases hm with
  | ambient hsame => exact .same (listed_congr hsame.resources) hsame.handlers hsame.nextHandler
  | startUpdate => exact .same rfl rfl rfl
  | endUpdate => exact .same rfl rfl rfl
  | edit hx he hedit hreads hsame =>
    have hlist := listed_same hx hedit.samePlace.pushHandlerList
    exact .same ((listed_congr hsame.resources).trans hlist) hsame.handlers hsame.nextHandler
  | @addHandler r x hx t =>
    refine .add r t ?_ rfl rfl
    rw [listed_of_resource hx]
    exact listed_setResource h r { x with pushHandlerList := x.pushHandlerList ++ [h.nextHandler] }
  | @removeHandler p handler x hp hx =>
    refine .remove p handler hp (by simp [hx]) ?_ rfl rfl
    rw [listed_of_resource hx]
    exact listed_setResource h _ { x with pushHandlerList := x.pushHandlerList.erase p }
  | unlink dest hu =>
    have hs := (routesOnly_unlinkSource h dest).result hu
    exact .same (listed_unrouted hs.resources) hs.handlers hs.nextHandler
  | link dest src fuel hd hnone hloop hl =>
    have hs := (routesOnly_linkSource _ dest src).result hl
    exact .same (listed_unrouted hs.resources) hs.handlers hs.nextHandler
  | addChild parent name ha =>
    obtain ⟨_, _, _, hh⟩ := (addChild_frame h parent name).result ha
    dsimp only at hh
    subst hh
    exact .same rfl rfl rfl
  | replace he hre hy hr =>
    exact relisted_replaced hwf he hy (replaceResource_replaced hwf he hr).2
  | @remove _ _ r x entry evs hx he hsrc hdest hsame hlog hfreed hrel =>
    have hs := (releaseEntry_frame _ _ _).result hrel
    have hres : h'.resources = (freed h r x).resources := hs.resources.trans hsame.resources
    refine .free r ((listed_congr hres).trans (listed_freed h r x)) ?_
      (hs.nextHandler.trans hsame.nextHandler)
    rw [hs.handlers, hsame.handlers, listed_of_resource hx]
    rfl

/-- Numbers of resources are never used again. -/
theorem dead_micro (hwf : WellFormed h) (hm : Micro P h h') :
    h.nextRes ≤ h'.nextRes ∧ (r < h.nextRes → h.resources r = none → h'.resources r = none) := by
  have hset : ∀ {q x y}, h.resources q = some x → h.resources r = none →
      (h.setResource q y).resources r = none := by
    intro q x y hx hr
    have hne : r ≠ q := by
      rintro rfl
      rw [hr] at hx
      cases hx
    exact (Function.update_of_ne hne ..).trans hr
  have hroutes : ∀ {h₁ h₂ : Hub}, RoutesOnly h₁ h₂ → h₁.resources r = none →
      h₂.resources r = none := by
    intro h₁ h₂ hs hr
    have hq := hs.resources r
    rw [hr] at hq
    exact Option.map_eq_none_iff.mp hq
  cases hm with
  | ambient hsame => exact ⟨Nat.le_of_eq hsame.nextRes.symm, fun _ hr => hsame.resources ▸ hr⟩
  | startUpdate => exact ⟨Nat.le_refl _, fun _ hr => hr⟩
  | endUpdate => exact ⟨Nat.le_refl _, fun _ hr => hr⟩
  | edit hx he hedit hreads hsame =>
    exact ⟨Nat.le_of_eq hsame.nextRes.symm, fun _ hr => hsame.resources ▸ hset hx hr⟩
  | addHandler hx t => exact ⟨Nat.le_refl _, fun _ hr => hset hx hr⟩
  | removeHandler hp hx => exact ⟨Nat.le_refl _, fun _ hr => hset hx hr⟩
  | unlink dest hu =>
    have hs := (routesOnly_unlinkSource h dest).result hu
    exact ⟨Nat.le_of_eq hs.nextRes.symm, fun _ hr => hroutes hs hr⟩
  | link dest src fuel hd hnone hloop hl =>
    have hs := (routesOnly_linkSource _ dest src).result hl
    exact ⟨Nat.le_of_eq hs.nextRes.symm, fun _ hr => hroutes hs hr⟩
  | addChild parent name ha =>
    obtain ⟨_, _, _, hh⟩ := (addChild_frame h parent name).result ha
    dsimp only at hh
    subst hh
    exact ⟨Nat.le_refl _, fun _ hr => hr⟩
  | replace he hre hy hr =>
    have hrep := (replaceResource_replaced hwf he hr).2
    refine ⟨hrep.nextRes ▸ Nat.le_succ _, fun hlt hnone => ?_⟩
    cases hz : h'.resources r with
    | none => rfl
    | some z =>
      rcases replaced_cases hwf he hy.entryRef hrep hz with ⟨x, hx, _⟩ | ⟨rfl, _⟩ | ⟨rfl, _⟩
      · rw [hnone] at hx
        cases hx
      · exact absurd hlt (Nat.lt_irrefl _)
      · exact absurd hlt (Nat.lt_irrefl _)
  | @remove _ _ q x entry evs hx he hsrc hdest hsame hlog hfreed hrel =>
    have hs := (releaseEntry_frame _ _ _).result hrel
    refine ⟨Nat.le_of_eq (hs.nextRes.trans hsame.nextRes).symm, fun _ hr => ?_⟩
    rw [hs.resources, hsame.resources]
    show Function.update h.resources q none r = none
    by_cases hq : r = q
    · rw [hq, Function.update_self]
    · rw [Function.update_of_ne hq, hr]

/-! ### Invariants of the lists -/

/-- Each handler is linked in one list, once; that is the one it points at, or the one it points at
has been freed. -/
structure HandlersHeld (h : Hub) : Prop where
  live : ∀ r p, p ∈ h.listed r → ∃ handler, h.handlers p = some handler ∧
    (handler.listPtr = r ∨ handler.listPtr < h.nextRes ∧ h.resources handler.listPtr = none)
  nodup : ∀ r, (h.listed r).Nodup
  disjoint : ∀ r r' p, p ∈ h.listed r → p ∈ h.listed r' → r = r'
  held : ∀ p handler, h.handlers p = some handler → ∃ r, p ∈ h.listed r
  lt : ∀ p handler, h.handlers p = some handler → p < h.nextHandler

theorem HandlersHeld.fresh (hh : HandlersHeld h) (r : ResRef) : h.nextHandler ∉ h.listed r := by
  intro hmem
  obtain ⟨handler, hp, _⟩ := hh.live r _ hmem
  exact absurd (hh.lt _ _ hp) (Nat.lt_irrefl _)

/-- A handler whose list is still there is linked in no other one. -/
theorem HandlersHeld.listPtr_eq (hh : HandlersHeld h) (hp : h.handlers p = some handler)
    (hlive : h.resources handler.listPtr ≠ none) (hmem : p ∈ h.listed r) :
    handler.listPtr = r := by
  obtain ⟨handler', hp', heq | ⟨_, hdead⟩⟩ := hh.live r p hmem
  · cases hp.symm.trans hp'
    exact heq
  · cases hp.symm.trans hp'
    exact absurd hdead hlive

theorem HandlersHeld.add (hh : HandlersHeld h) {t : DataType}
    (hl : h'.listed = Function.update h.listed a (h.listed a ++ [h.nextHandler]))
    (hnew : h'.handlers = Function.update h.handlers h.nextHandler (some ⟨t, a⟩))
    (hn : h'.nextHandler = h.nextHandler + 1) (hres : h.nextRes ≤ h'.nextRes)
    (hdead : ∀ r, r < h.nextRes → h.resources r = none → h'.resources r = none) :
    HandlersHeld h' := by
  have hmem : ∀ {r p}, p ∈ h'.listed r → (r = a ∧ p = h.nextHandler) ∨ p ∈ h.listed r := by
    intro r p hp
    rw [hl] at hp
    by_cases hr : r = a
    · subst hr
      rw [Function.update_self] at hp
      rcases List.mem_append.mp hp with hp | hp
      · exact .inr hp
      · exact .inl ⟨rfl, List.mem_singleton.mp hp⟩
    · rw [Function.update_of_ne hr] at hp
      exact .inr hp
  refine ⟨?_, ?_, ?_, ?_, ?_⟩
  · intro r p hp
    rcases hmem hp with ⟨rfl, rfl⟩ | hp
    · exact ⟨⟨t, r⟩, by simp [hnew], .inl rfl⟩
    · obtain ⟨handler, hhandler, hptr⟩ := hh.live r p hp
      have hne : p ≠ h.nextHandler := fun heq => hh.fresh r (heq ▸ hp)
      refine ⟨handler, by rw [hnew, Function.update_of_ne hne, hhandler], ?_⟩
      exact hptr.imp id fun hgone => ⟨Nat.lt_of_lt_of_le hgone.1 hres, hdead _ hgone.1 hgone.2⟩
  · intro r
    rw [hl]
    by_cases hr : r = a
    · subst hr
      rw [Function.update_self, List.nodup_append]
      refine ⟨hh.nodup r, List.nodup_singleton _, ?_⟩
      intro p hp q hq heq
      exact hh.fresh r (List.mem_singleton.mp hq ▸ heq ▸ hp)
    · rw [Function.update_of_ne hr]
      exact hh.nodup r
  · intro r r' p hp hp'
    rcases hmem hp with ⟨rfl, rfl⟩ | hp
    · rcases hmem hp' with ⟨rfl, _⟩ | hp'
      · rfl
      · exact absurd hp' (hh.fresh r')
    · rcases hmem hp' with ⟨rfl, rfl⟩ | hp'
      · exact absurd hp (hh.fresh r)
      · exact hh.disjoint r r' p hp hp'
  · intro p handler hp
    rw [hnew] at hp
    rw [hl]
    by_cases hne : p = h.nextHandler
    · exact ⟨a, by simp [hne]⟩
    · rw [Function.update_of_ne hne] at hp
      obtain ⟨r, hr⟩ := hh.held p handler hp
      refine ⟨r, ?_⟩
      by_cases hra : r = a
      · subst hra
        rw [Function.update_self]
        exact List.mem_append_left _ hr
      · rwa [Function.update_of_ne hra]
  · intro p handler hp
    rw [hnew] at hp
    rw [hn]
    by_cases hne : p = h.nextHandler
    · rw [hne]
      exact Nat.lt_succ_self _
    · rw [Function.update_of_ne hne] at hp
      exact Nat.lt_succ_of_lt (hh.lt p handler hp)

/-- Handlers are freed that are then in no list any more. -/
theorem HandlersHeld.drop (hh : HandlersHeld h) (gone : HandlerRef → Prop) [DecidablePred gone]
    (hsub : ∀ r, (h'.listed r).Sublist (h.listed r))
    (hl : ∀ r p, p ∈ h.listed r → (p ∈ h'.listed r ↔ ¬ gone p))
    (hnew : h'.handlers = fun p => if gone p then none else h.handlers p)
    (hn : h'.nextHandler = h.nextHandler) (hres : h.nextRes ≤ h'.nextRes)
    (hdead : ∀ r, r < h.nextRes → h.resources r = none → h'.resources r = none) :
    HandlersHeld h' := by
  refine ⟨?_, fun r => (hh.nodup r).sublist (hsub r), ?_, ?_, ?_⟩
  · intro r p hp
    have hold := (hsub r).subset hp
    obtain ⟨handler, hhandler, hptr⟩ := hh.live r p hold
    refine ⟨handler, ?_, ?_⟩
    · rw [hnew]
      exact (if_neg ((hl r p hold).mp hp)).trans hhandler
    · exact hptr.imp id fun hgone => ⟨Nat.lt_of_lt_of_le hgone.1 hres, hdead _ hgone.1 hgone.2⟩
  · intro r r' p hp hp'
    exact hh.disjoint r r' p ((hsub r).subset hp) ((hsub r').subset hp')
  · intro p handler hp
    rw [hnew] at hp
    by_cases hg : gone p
    · simp [hg] at hp
    · simp only [hg, if_false] at hp
      obtain ⟨r, hr⟩ := hh.held p handler hp
      exact ⟨r, (hl r p hr).mpr hg⟩
  · intro p handler hp
    rw [hnew] at hp
    by_cases hg : gone p
    · simp [hg] at hp
    · simp only [hg, if_false] at hp
      exact hn ▸ hh.lt p handler hp

/-- The whole list of a resource that is freed goes to the one that replaces it. -/
theorem HandlersHeld.move (hh : HandlersHeld h) {old new : ResRef} (hx : h.resources old = some x)
    (hwf : WellFormed h) (hfree : h.listed new = []) (hold : h'.resources old = none)
    (hl : h'.listed = Function.update (Function.update h.listed old []) new (h.listed old))
    (hnew : h'.handlers = h.handlers) (hn : h'.nextHandler = h.nextHandler)
    (hres : h.nextRes ≤ h'.nextRes)
    (hdead : ∀ r, r < h.nextRes → h.resources r = none → h'.resources r = none) :
    HandlersHeld h' := by
  have hmem : ∀ {r p}, p ∈ h'.listed r →
      (r = new ∧ p ∈ h.listed old) ∨ (r ≠ new ∧ r ≠ old ∧ p ∈ h.listed r) := by
    intro r p hp
    rw [hl] at hp
    by_cases hr : r = new
    · subst hr
      rw [Function.update_self] at hp
      exact .inl ⟨rfl, hp⟩
    · rw [Function.update_of_ne hr] at hp
      by_cases hro : r = old
      · subst hro
        simp at hp
      · rw [Function.update_of_ne hro] at hp
        exact .inr ⟨hr, hro, hp⟩
  have hlt := hwf.res_lt old x hx
  refine ⟨?_, ?_, ?_, ?_, ?_⟩
  · intro r p hp
    rw [hnew]
    rcases hmem hp with ⟨rfl, hp⟩ | ⟨_, _, hp⟩
    · obtain ⟨handler, hhandler, heq | ⟨hlt', hnone⟩⟩ := hh.live old p hp
      · exact ⟨handler, hhandler, .inr (heq ▸ ⟨Nat.lt_of_lt_of_le hlt hres, hold⟩)⟩
      · exact ⟨handler, hhandler, .inr ⟨Nat.lt_of_lt_of_le hlt' hres, hdead _ hlt' hnone⟩⟩
    · obtain ⟨handler, hhandler, hptr⟩ := hh.live r p hp
      exact ⟨handler, hhandler,
        hptr.imp id fun hgone => ⟨Nat.lt_of_lt_of_le hgone.1 hres, hdead _ hgone.1 hgone.2⟩⟩
  · intro r
    rw [hl]
    by_cases hr : r = new
    · rw [hr, Function.update_self]
      exact hh.nodup old
    · rw [Function.update_of_ne hr]
      by_cases hro : r = old
      · rw [hro, Function.update_self]
        exact List.nodup_nil
      · rw [Function.update_of_ne hro]
        exact hh.nodup r
  · intro r r' p hp hp'
    rcases hmem hp with ⟨rfl, hp⟩ | ⟨_, hro, hp⟩
    · rcases hmem hp' with ⟨rfl, _⟩ | ⟨_, hro', hp'⟩
      · rfl
      · exact absurd (hh.disjoint old r' p hp hp') (Ne.symm hro')
    · rcases hmem hp' with ⟨rfl, hp'⟩ | ⟨_, _, hp'⟩
      · exact absurd (hh.disjoint old r p hp' hp) (Ne.symm hro)
      · exact hh.disjoint r r' p hp hp'
  · intro p handler hp
    rw [hnew] at hp
    obtain ⟨r, hr⟩ := hh.held p handler hp
    rw [hl]
    by_cases hro : r = old
    · exact ⟨new, by rw [Function.update_self]; exact hro ▸ hr⟩
    · have hrn : r ≠ new := by
        rintro rfl
        rw [hfree] at hr
        cases hr
      exact ⟨r, by rwa [Function.update_of_ne hrn, Function.update_of_ne hro]⟩
  · rw [hnew, hn]
    exact hh.lt

theorem handlersHeld_micro (hwf : WellFormed h) (hm : Micro P h h') (hh : HandlersHeld h) :
    HandlersHeld h' := by
  have hres : h.nextRes ≤ h'.nextRes := (dead_micro (r := 0) hwf hm).1
  have hdead : ∀ r, r < h.nextRes → h.resources r = none → h'.resources r = none :=
    fun r => (dead_micro hwf hm).2
  cases relisted_micro hwf hm with
  | same hl hnew hn =>
    refine hh.drop (fun _ => False) (fun r => hl ▸ List.Sublist.refl _) ?_ (by simp [hnew]) hn hres
      hdead
    intro r p hp
    simpa [hl] using hp
  | add a t hl hnew hn => exact hh.add hl hnew hn hres hdead
  | remove p handler hp hlive hl hnew hn =>
    refine hh.drop (· = p) ?_ ?_ ?_ hn hres hdead
    · intro r
      rw [hl]
      by_cases hr : r = handler.listPtr
      · rw [hr, Function.update_self]
        exact List.erase_sublist
      · rw [Function.update_of_ne hr]
    · intro r q hq
      rw [hl]
      by_cases hr : r = handler.listPtr
      · subst hr
        rw [Function.update_self, (hh.nodup _).mem_erase_iff]
        exact ⟨fun h => h.1, fun h => ⟨h, hq⟩⟩
      · rw [Function.update_of_ne hr]
        refine iff_of_true hq ?_
        rintro rfl
        exact hr (hh.listPtr_eq hp hlive hq).symm
    · funext q
      rw [hnew, Function.update_apply]
  | move old new x hx hfree hold hlog hl hnew hn =>
    exact hh.move hx hwf hfree hold hl hnew hn hres hdead
  | free a hl hnew hn =>
    refine hh.drop (· ∈ h.listed a) ?_ ?_ hnew hn hres hdead
    · intro r
      rw [hl]
      by_cases hr : r = a
      · rw [hr, Function.update_self]
        exact List.nil_sublist _
      · rw [Function.update_of_ne hr]
    · intro r q hq
      rw [hl]
      by_cases hr : r = a
      · subst hr
        simpa using hq
      · rw [Function.update_of_ne hr]
        exact iff_of_true hq fun hq' => hr (hh.disjoint r a q hq hq')

theorem handlersHeld_boot (env : Environment) (files : List (CString × Bytes)) :
    HandlersHeld (boot env files) := by
  have hnil : ∀ r, (boot env files).listed r = [] := fun _ => rfl
  refine ⟨fun r p hp => ?_, fun r => hnil r ▸ List.nodup_nil, fun r r' p hp => ?_,
    fun p handler hp => ?_, fun p handler hp => ?_⟩
  · rw [hnil] at hp
    cases hp
  · rw [hnil] at hp
    cases hp
  · cases hp
  · cases hp

theorem reachable_handlersHeld (hr : Reachable P h) : HandlersHeld h :=
  reachable_induction (fun _ => True) handlersHeld_boot
    (fun _ _ hwf hm _ hh => handlersHeld_micro hwf hm hh) hr fun _ _ => trivial

/-! ### Back-pointers -/

/-- No resource is replaced while handlers are registered on it. -/
def keepsHandlers : Event → Bool
  | .replacing _ _ before _ _ => before.pushHandlerList.isEmpty
  | _ => true

/-- Each handler points at the list that it is linked in. -/
def HandlersCurrent (h : Hub) : Prop :=
  ∀ r p handler, p ∈ h.listed r → h.handlers p = some handler → handler.listPtr = r

theorem handlersCurrent_micro (hwf : WellFormed h) (hm : Micro P h h')
    (hok : ∀ e ∈ h'.log, keepsHandlers e = true) (hh : HandlersHeld h) (hc : HandlersCurrent h) :
    HandlersCurrent h' := by
  intro r p handler hp hhandler
  cases relisted_micro hwf hm with
  | same hl hnew hn => exact hc r p handler (hl ▸ hp) (hnew ▸ hhandler)
  | add a t hl hnew hn =>
    rw [hnew] at hhandler
    rw [hl] at hp
    by_cases hpn : p = h.nextHandler
    · subst hpn
      rw [Function.update_self] at hhandler
      cases hhandler
      by_cases hr : r = a
      · exact hr.symm
      · rw [Function.update_of_ne hr] at hp
        exact absurd hp (hh.fresh r)
    · rw [Function.update_of_ne hpn] at hhandler
      by_cases hr : r = a
      · subst hr
        rw [Function.update_self] at hp
        rcases List.mem_append.mp hp with hp | hp
        · exact hc r p handler hp hhandler
        · exact absurd (List.mem_singleton.mp hp) hpn
      · rw [Function.update_of_ne hr] at hp
        exact hc r p handler hp hhandler
  | remove q handler' hq hlive hl hnew hn =>
    have hold : h.handlers p = some handler := by
      rw [hnew, Function.update_apply] at hhandler
      split at hhandler
      · cases hhandler
      · exact hhandler
    refine hc r p handler ?_ hold
    rw [hl] at hp
    by_cases hr : r = handler'.listPtr
    · rw [hr, Function.update_self] at hp
      exact hr ▸ List.mem_of_mem_erase hp
    · rwa [Function.update_of_ne hr] at hp
  | move old new x hx hfree hold hlog hl hnew hn =>
    obtain ⟨et, y, hlog⟩ := hlog
    have hempty : h.listed old = [] := by
      rw [listed_of_resource hx]
      exact List.isEmpty_iff.mp (hok _ hlog)
    refine hc r p handler ?_ (hnew ▸ hhandler)
    rw [hl, hempty] at hp
    by_cases hr : r = new
    · simp [hr] at hp
    · rw [Function.update_of_ne hr] at hp
      by_cases hro : r = old
      · simp [hro] at hp
      · rwa [Function.update_of_ne hro] at hp
  | free a hl hnew hn =>
    have hold : h.handlers p = some handler := by
      rw [hnew] at hhandler
      dsimp only at hhandler
      split at hhandler
      · cases hhandler
      · exact hhandler
    refine hc r p handler ?_ hold
    rw [hl] at hp
    by_cases hr : r = a
    · simp [hr] at hp
    · rwa [Function.update_of_ne hr] at hp

theorem reachable_handlersCurrent (hr : Reachable P h)
    (hok : ∀ e ∈ h.log, keepsHandlers e = true) : HandlersHeld h ∧ HandlersCurrent h := by
  refine reachable_induction (keepsHandlers · = true)
    (Q := fun h => HandlersHeld h ∧ HandlersCurrent h) ?_ ?_ hr hok
  · refine fun env files => ⟨handlersHeld_boot env files, fun r p handler _ hhandler => ?_⟩
    cases hhandler
  · exact fun h h' hwf hm hok hq =>
      ⟨handlersHeld_micro hwf hm hq.1, handlersCurrent_micro hwf hm hok hq.1 hq.2⟩

end MangOH.DataHub
