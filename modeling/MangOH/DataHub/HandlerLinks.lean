import MangOH.DataHub.HandlerLists
import MangOH.DataHub.RouteLinks

/-! Removing a push handler: the list it points at is the one it is linked in, as long as no
resource is replaced under it. -/
namespace MangOH.DataHub

open Outcome

variable {P : Platform} {h : Hub}

/-- Every live handler is linked, once, in the list that it points at and in no other one, and that
list belongs to a resource attached to the tree; every linked handler is live; and to remove a
handler unlinks it and changes no other list. -/
structure HandlerLinks (h : Hub) : Prop where
  linked : ∀ p handler, h.handlers p = some handler → AttachedResource h handler.listPtr ∧
    ∀ x, h.resources handler.listPtr = some x → x.pushHandlerList.count p = 1
  only : ∀ p handler r x, h.handlers p = some handler → h.resources r = some x →
    p ∈ x.pushHandlerList → r = handler.listPtr
  live : ∀ r x p, h.resources r = some x → p ∈ x.pushHandlerList → h.handlers p ≠ none
  remove : ∀ p handler, h.handlers p = some handler → ∃ x h',
    h.resources handler.listPtr = some x ∧ handlerRemove h p = .ok h' ∧
    h'.resources = Function.update h.resources handler.listPtr
      (some { x with pushHandlerList := x.pushHandlerList.erase p }) ∧
    h'.handlers = Function.update h.handlers p none

/-- The links of handlers are right in every state that is reached without replacing a resource
that has handlers. -/
theorem handler_links (hr : Reachable P h) (hok : ∀ e ∈ h.log, keepsHandlers e = true) :
    HandlerLinks h := by
  obtain ⟨hheld, hcur⟩ := reachable_handlersCurrent hr hok
  have hwf := reachable_wellFormed hr
  have hlinked : ∀ p handler, h.handlers p = some handler →
      ∃ x, h.resources handler.listPtr = some x ∧ p ∈ x.pushHandlerList := by
    intro p handler hp
    obtain ⟨r, hmem⟩ := hheld.held p handler hp
    rw [hcur r p handler hmem hp]
    exact exists_of_listed hmem
  refine ⟨?_, ?_, ?_, ?_⟩
  · intro p handler hp
    obtain ⟨x, hx, hmem⟩ := hlinked p handler hp
    refine ⟨attachedResource_of_resource hwf hx, fun x' hx' => ?_⟩
    cases hx.symm.trans hx'
    have hnodup := hheld.nodup handler.listPtr
    rw [listed_of_resource hx] at hnodup
    exact List.count_eq_one_of_mem hnodup hmem
  · intro p handler r x hp hx hmem
    exact (hcur r p handler ((listed_of_resource hx).symm ▸ hmem) hp).symm
  · intro r x p hx hmem hnone
    obtain ⟨handler, hp, _⟩ := hheld.live r p ((listed_of_resource hx).symm ▸ hmem)
    rw [hnone] at hp
    cases hp
  · intro p handler hp
    obtain ⟨x, hx, _⟩ := hlinked p handler hp
    refine ⟨x, h.removeHandler p handler.listPtr x, hx, ?_, rfl, rfl⟩
    have hmod := modifyResource_ok (f := fun x =>
      { x with pushHandlerList := x.pushHandlerList.erase p }).mpr ⟨x, hx, rfl⟩
    simp only [handlerRemove, hp]
    rw [hmod]
    rfl

/-- A handler on an Input that is removed before the Input goes. -/
def removedHandlerRun : List Op :=
  [.ioCreateInput 0 (ascii "x") .numeric [],
   .ioAddPushHandler 0 (ascii "x") .numeric,
   .ioAddPushHandler 0 (ascii "x") .numeric,
   .removePushHandler 0]

theorem handler_links_removedHandlerRun : ∃ h, Reachable smallPlatform h ∧
    ((h.resources 0).any fun x => x.pushHandlerList = [1]) = true ∧ HandlerLinks h := by
  have hrun : smallRunEnds removedHandlerRun (fun h =>
      ((h.resources 0).any fun x =>
        x.pushHandlerList = [1]) && h.log.all keepsHandlers) = true := by
    decide +kernel
  obtain ⟨h, hr, hp⟩ := exists_of_smallRunEnds hrun
  rw [Bool.and_eq_true] at hp
  exact ⟨h, hr, hp.1, handler_links hr (List.all_eq_true.mp hp.2)⟩

/-- A handler that is registered before the Input is there is moved to the Input's list, and still
points at the list of the Placeholder. -/
def earlyHandlerRun : List Op :=
  [.adminAddPushHandler (ascii "/app/a/x") .numeric,
   .ioCreateInput 0 (ascii "x") .numeric []]

theorem handler_links_fails : ∃ h, Reachable smallPlatform h ∧ ¬ HandlerLinks h := by
  have hrun : smallRunEnds earlyHandlerRun (fun h =>
      (h.handlers 0).any fun handler => (h.resources handler.listPtr).isNone) = true := by
    decide +kernel
  obtain ⟨h, hr, hp⟩ := exists_of_smallRunEnds hrun
  obtain ⟨handler, hhandler, hnone⟩ := (Option.any_eq_true _ _).mp hp
  refine ⟨h, hr, fun hlinks => ?_⟩
  obtain ⟨⟨x, _, hx, _⟩, _⟩ := hlinks.linked 0 handler hhandler
  rw [Option.isNone_iff_eq_none.mp hnone] at hx
  cases hx

end MangOH.DataHub
