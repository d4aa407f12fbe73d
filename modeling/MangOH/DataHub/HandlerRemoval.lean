import MangOH.DataHub.HandlerLists
import MangOH.DataHub.Scenario

/-! Deleting an Output: which of the handlers that its app has registered can still be called. -/
namespace MangOH.DataHub

open Outcome

variable {P : Platform} {h h' h₁ : Hub} {r : ResRef} {x : Resource} {p : HandlerRef}
  {session : Nat} {path : CString}

/-! ### Handlers that have been freed -/

/-- Numbers of handlers are never used again, and a handler never changes. -/
theorem handlers_micro (hwf : WellFormed h) (hm : Micro P h h') (hlt : p < h.nextHandler) :
    p < h'.nextHandler ∧ (h'.handlers p = h.handlers p ∨ h'.handlers p = none) := by
  cases relisted_micro hwf hm with
  | same hl hh hn => exact ⟨hn ▸ hlt, .inl (by rw [hh])⟩
  | add r t hl hh hn =>
    refine ⟨hn ▸ Nat.lt_succ_of_lt hlt, .inl ?_⟩
    rw [hh, Function.update_of_ne (Nat.ne_of_lt hlt)]
  | remove q handler hq hlive hl hh hn =>
    refine ⟨hn ▸ hlt, ?_⟩
    rw [hh]
    by_cases hpq : p = q
    · exact .inr (by rw [hpq, Function.update_self])
    · exact .inl (Function.update_of_ne hpq ..)
  | move old new x hx hfree hdead hlog hl hh hn => exact ⟨hn ▸ hlt, .inl (by rw [hh])⟩
  | free r hl hh hn =>
    refine ⟨hn ▸ hlt, ?_⟩
    rw [hh]
    dsimp only
    split
    · exact .inr rfl
    · exact .inl rfl

/-- Only handlers that are alive are called. -/
theorem called_micro (hwf : WellFormed h) (hm : Micro P h h') :
    ∃ evs, h'.log = h.log ++ evs ∧ ∀ ts v, .called p ts v ∈ evs → h.handlers p ≠ none := by
  obtain ⟨evs, hlog, hlogged⟩ := logged_micro hwf hm
  refine ⟨evs, hlog, fun ts v hmem => ?_⟩
  cases hlogged _ hmem with
  | called hp => simp [hp]
  | plain he => cases he

/-- A handler is never called again. -/
def Silent (h h' : Hub) (p : HandlerRef) : Prop :=
  ∃ evs, h'.log = h.log ++ evs ∧ ∀ ts v, .called p ts v ∉ evs

theorem silent_of_freed (hwf : WellFormed h) (hlt : p < h.nextHandler)
    (hdead : h.handlers p = none) (hl : Later P h h') : Silent h h' p := by
  have hq := ext_induction (fun _ => True)
    (Q := fun h' => (p < h'.nextHandler ∧ h'.handlers p = none) ∧ Silent h h' p)
    ⟨⟨hlt, hdead⟩, [], (List.append_nil _).symm, by simp⟩ ?_ hwf (hl.ext hwf) fun _ _ => trivial
  · exact hq.2
  · rintro a b hwfa hm _ ⟨⟨hlta, hdeada⟩, evs, hlog, hquiet⟩
    obtain ⟨hltb, hsame⟩ := handlers_micro hwfa hm hlta
    obtain ⟨evs', hlog', hcalled⟩ := called_micro (p := p) hwfa hm
    refine ⟨⟨hltb, hsame.elim (·.trans hdeada) id⟩, evs ++ evs', ?_, fun ts v hmem => ?_⟩
    · rw [hlog', hlog, List.append_assoc]
    · rcases List.mem_append.mp hmem with hmem | hmem
      · exact hquiet ts v hmem
      · exact hcalled ts v hmem hdeada

/-! ### Handlers that an app has registered -/

/-- A handler that an app has registered points at the list of the resource it was registered on. -/
structure Registered (h : Hub) : Prop where
  held : HandlersHeld h
  lt : ∀ r p, .registering r p ∈ h.log → p < h.nextHandler
  listPtr : ∀ r p handler, .registering r p ∈ h.log → h.handlers p = some handler →
    handler.listPtr = r

theorem registering_micro (hwf : WellFormed h) (hm : Micro P h h') :
    ∃ evs, h'.log = h.log ++ evs ∧ ∀ r p, .registering r p ∈ evs →
      ∃ handler, h.handlers p = some handler ∧ handler.listPtr = r := by
  obtain ⟨evs, hlog, hlogged⟩ := logged_micro hwf hm
  refine ⟨evs, hlog, fun r p hmem => ?_⟩
  cases hlogged _ hmem with
  | registering hp => exact ⟨_, hp, rfl⟩
  | plain he => cases he

theorem registered_micro (hwf : WellFormed h) (hm : Micro P h h') (hreg : Registered h) :
    Registered h' := by
  obtain ⟨evs, hlog, hnew⟩ := registering_micro hwf hm
  have hlt : ∀ r p, .registering r p ∈ h'.log → p < h.nextHandler ∧
      ∀ handler, h.handlers p = some handler → handler.listPtr = r := by
    intro r p hmem
    rw [hlog] at hmem
    rcases List.mem_append.mp hmem with hmem | hmem
    · exact ⟨hreg.lt r p hmem, fun handler hp => hreg.listPtr r p handler hmem hp⟩
    · obtain ⟨handler, hp, hptr⟩ := hnew r p hmem
      refine ⟨hreg.held.lt p handler hp, fun handler' hp' => ?_⟩
      cases hp.symm.trans hp'
      exact hptr
  refine ⟨handlersHeld_micro hwf hm hreg.held, fun r p hmem => ?_, fun r p handler hmem hp => ?_⟩
  · exact (handlers_micro hwf hm (hlt r p hmem).1).1
  · obtain ⟨hlt, hptr⟩ := hlt r p hmem
    rcases (handlers_micro hwf hm hlt).2 with hsame | hnone
    · exact hptr handler (hsame ▸ hp)
    · rw [hnone] at hp
      cases hp

theorem reachable_registered (hr : Reachable P h) : Registered h :=
  reachable_induction (fun _ => True)
    (fun env files => ⟨handlersHeld_boot env files, fun _ _ hmem => absurd hmem List.not_mem_nil,
      fun _ _ _ hmem => absurd hmem List.not_mem_nil⟩)
    (fun _ _ hwf hm _ hreg => registered_micro hwf hm hreg) hr fun _ _ => trivial

/-! ### The deletion of an Output -/

/-- The app behind a session deletes its Output `x`. -/
structure DeletesOutput (P : Platform) (h : Hub) (session : Nat) (path : CString) (r : ResRef)
    (x : Resource) (h₁ : Hub) : Prop where
  found : ∃ h₀ e entry, ioFindResource P h session path = .ok (h₀, some e) ∧
    h₀.entries e = some entry ∧ entry.type = .output ∧ entry.resourcePtr = some r
  resource : h.resources r = some x
  deleted : ioDeleteResource P h session path = .ok h₁

theorem DeletesOutput.later (hd : DeletesOutput P h session path r x h₁) : Later P h h₁ :=
  .single ⟨0, .ioDeleteResource session path, hd.deleted⟩

/-- No handler that its app has registered is on an Output any more when it is deleted. -/
def AllRemoved (h : Hub) (r : ResRef) (x : Resource) : Prop :=
  ∀ p ∈ x.pushHandlerList, .registering r p ∉ h.log

/-- The handlers that its app has registered on an Output are never called again after its deletion
if they are all removed before. -/
theorem deleted_output_silent (hr : Reachable P h) (hd : DeletesOutput P h session path r x h₁)
    (hok : AllRemoved h r x) (hl : Later P h₁ h') :
    ∀ p, .registering r p ∈ h.log → Silent h h' p := by
  intro p hmem
  have hwf := reachable_wellFormed hr
  have hreg := reachable_registered hr
  refine silent_of_freed hwf (hreg.lt r p hmem) ?_ (hd.later.trans hl)
  cases hp : h.handlers p with
  | none => rfl
  | some handler =>
    have hptr := hreg.listPtr r p handler hmem hp
    obtain ⟨q, hq⟩ := hreg.held.held p handler hp
    have hlive : h.resources handler.listPtr ≠ none := by
      rw [hptr, hd.resource]
      simp
    have hqr := hreg.held.listPtr_eq hp hlive hq
    rw [← hqr, hptr, listed_of_resource hd.resource] at hq
    exact absurd hmem (hok p hq)

/-- A test for the deletion of an Output. -/
def deletesOutput (P : Platform) (h : Hub) (session : Nat) (path : CString) (r : ResRef) : Bool :=
  (match ioFindResource P h session path with
    | .ok (h₀, some e) => (h₀.entries e).any fun entry =>
      decide (entry.type = .output) && decide (entry.resourcePtr = some r)
    | _ => false) &&
  match ioDeleteResource P h session path with
  | .ok _ => (h.resources r).isSome
  | .error _ => false

theorem exists_deletesOutput (hd : deletesOutput P h session path r = true) :
    ∃ x h₁, DeletesOutput P h session path r x h₁ := by
  unfold deletesOutput at hd
  rw [Bool.and_eq_true] at hd
  obtain ⟨hfound, hdel⟩ := hd
  split at hdel
  · next h₁ hdeleted =>
    obtain ⟨x, hx⟩ := Option.isSome_iff_exists.mp hdel
    refine ⟨x, h₁, ?_, hx, hdeleted⟩
    split at hfound
    · next h₀ e hfind =>
      obtain ⟨entry, he, hentry⟩ := (Option.any_eq_true _ _).mp hfound
      rw [Bool.and_eq_true, decide_eq_true_iff, decide_eq_true_iff] at hentry
      exact ⟨h₀, e, entry, hfind, he, hentry⟩
    · cases hfound
  · cases hdel

/-- A handler is registered on an Output. -/
def handledOutputRun : List Op :=
  [.ioCreateOutput 0 (ascii "x") .numeric [],
   .ioAddPushHandler 0 (ascii "x") .numeric]

def Event.registersFirst : Event → Bool
  | .registering 0 0 => true
  | _ => false

def Event.callsFirst : Event → Bool
  | .called 0 _ _ => true
  | _ => false

theorem registering_of_registersFirst (hlog : h.log.any Event.registersFirst = true) :
    .registering 0 0 ∈ h.log := by
  obtain ⟨ev, hev, hmatch⟩ := List.any_eq_true.mp hlog
  unfold Event.registersFirst at hmatch
  split at hmatch
  · exact hev
  · cases hmatch

theorem deleted_output_silent_removed : ∃ h x h₁, Reachable smallPlatform h ∧
    DeletesOutput smallPlatform h 0 (ascii "x") 0 x h₁ ∧ AllRemoved h 0 x ∧
    .registering 0 0 ∈ h.log ∧ ∀ h', Later smallPlatform h₁ h' → Silent h h' 0 := by
  have hrun : smallRunEnds (handledOutputRun ++ [.removePushHandler 0]) (fun h =>
      deletesOutput smallPlatform h 0 (ascii "x") 0 &&
      ((h.resources 0).any fun x => x.pushHandlerList.isEmpty) &&
      h.log.any Event.registersFirst) = true := by
    decide +kernel
  obtain ⟨h, hr, hp⟩ := exists_of_smallRunEnds hrun
  rw [Bool.and_eq_true, Bool.and_eq_true] at hp
  obtain ⟨⟨hdel, hlist⟩, hlog⟩ := hp
  obtain ⟨x, h₁, hd⟩ := exists_deletesOutput hdel
  have hok : AllRemoved h 0 x := by
    obtain ⟨x', hx', hempty⟩ := (Option.any_eq_true _ _).mp hlist
    cases hd.resource.symm.trans hx'
    intro p hp
    rw [List.isEmpty_iff.mp hempty] at hp
    cases hp
  have hmem := registering_of_registersFirst hlog
  exact ⟨h, x, h₁, hr, hd, hok, hmem, fun h' hl => deleted_output_silent hr hd hok hl 0 hmem⟩

/-- A handler is called after the Output it was registered at has been deleted. -/
def calledAfterDeletion (h : Hub) : Bool :=
  deletesOutput smallPlatform h 0 (ascii "x") 0 && h.log.any Event.registersFirst &&
    passes (run smallPlatform 8 h [.ioDeleteResource 0 (ascii "x"),
      .adminPush (ascii "/app/a/x") (double 3) (.numeric (double 7))]) fun h' =>
        (h'.log.drop h.log.length).any Event.callsFirst

theorem deleted_output_silent_fails : ∃ h x h₁ h', Reachable smallPlatform h ∧
    DeletesOutput smallPlatform h 0 (ascii "x") 0 x h₁ ∧ Later smallPlatform h₁ h' ∧
    .registering 0 0 ∈ h.log ∧ ¬ Silent h h' 0 := by
  have hrun : smallRunEnds handledOutputRun calledAfterDeletion = true := by decide +kernel
  obtain ⟨h, hr, hp⟩ := exists_of_smallRunEnds hrun
  rw [calledAfterDeletion, Bool.and_eq_true, Bool.and_eq_true] at hp
  obtain ⟨⟨hdel, hlog⟩, hcalled⟩ := hp
  obtain ⟨x, h₁, hd⟩ := exists_deletesOutput hdel
  have hmem := registering_of_registersFirst hlog
  obtain ⟨h', hrun', hcalled⟩ := passes_iff.mp hcalled
  obtain ⟨h₂, hs, hrun'⟩ := bind_eq_ok.mp hrun'
  cases hd.deleted.symm.trans hs
  obtain ⟨h₃, hs', hrun'⟩ := bind_eq_ok.mp hrun'
  cases hrun'
  refine ⟨h, x, h₁, h', hr, hd, .single ⟨8, _, hs'⟩, hmem, ?_⟩
  rintro ⟨evs, heq, hquiet⟩
  rw [heq, List.drop_left] at hcalled
  obtain ⟨ev, hev, hmatch⟩ := List.any_eq_true.mp hcalled
  unfold Event.callsFirst at hmatch
  split at hmatch
  · exact hquiet _ _ hev
  · cases hmatch

end MangOH.DataHub
