import MangOH.DataHub.Frames

/-! What is done to resources and handlers leaves the tree as it is. -/
namespace MangOH.DataHub

open Outcome

variable {P : Platform} {b h h' : Hub} {r : ResRef} {x : Resource}

/-- What the handlers for changes of the resource tree are called with. -/
def Event.notice : Event → Option (CString × EntryType × ResourceOperation)
  | .treeChange path et operation => some (path, et, operation)
  | _ => none

def Hub.notices (h : Hub) : List (CString × EntryType × ResourceOperation) :=
  h.log.filterMap Event.notice

/-- The entries, the namespaces of the sessions and the notifications stay as they are. -/
structure Calm (h h' : Hub) : Prop where
  entries : h'.entries = h.entries
  nextEntry : h'.nextEntry = h.nextEntry
  sessions : h'.sessions = h.sessions
  notices : h'.notices = h.notices

theorem Calm.refl (h : Hub) : Calm h h := ⟨rfl, rfl, rfl, rfl⟩

theorem Calm.trans (hc : Calm b h) (hc' : Calm h h') : Calm b h' :=
  ⟨hc'.entries.trans hc.entries, hc'.nextEntry.trans hc.nextEntry,
    hc'.sessions.trans hc.sessions, hc'.notices.trans hc.notices⟩

theorem Calm.setResource (hc : Calm b h) (r : ResRef) (x : Resource) :
    Calm b (h.setResource r x) := hc.trans ⟨rfl, rfl, rfl, rfl⟩

theorem Calm.setHandler (hc : Calm b h) (p : HandlerRef) (handler : Option Handler) :
    Calm b (h.setHandler p handler) := hc.trans ⟨rfl, rfl, rfl, rfl⟩

theorem Calm.emit (hc : Calm b h) {e : Event} (he : e.notice = none) : Calm b (h.emit e) :=
  hc.trans ⟨rfl, rfl, rfl, by simp [Hub.notices, Hub.emit, he]⟩

theorem Calm.emitObs (hc : Calm b h) (r : ResRef) (evs : List ObsEvent) :
    Calm b (h.emitObs r evs) := by
  refine hc.trans ⟨rfl, rfl, rfl, ?_⟩
  have hnone : (evs.map (Event.obs r)).filterMap Event.notice = [] := by
    simp [List.filterMap_eq_nil_iff, Event.notice]
  simp [Hub.notices, Hub.emitObs, hnone]

theorem Calm.modifyResource (hc : Calm b h) (r : ResRef) (f : Resource → Resource) :
    Returns (h.modifyResource r f) (Calm b) := by
  refine Returns.of_ok fun h' hm => ?_
  obtain ⟨x, _, rfl⟩ := modifyResource_ok.mp hm
  exact hc.setResource r _

theorem Calm.configured (hc : Calm b h) (r : ResRef) (setting : Setting) :
    Calm b (h.configured r setting) := hc.emit rfl

/-! ### Handlers and pushes -/

theorem calm_handlerCall (hc : Calm b h) (p : HandlerRef) (t : DataType) (s : DataSample) :
    Returns (handlerCall P h p t s) (Calm b) := by
  unfold handlerCall
  split
  · exact id
  · next handler _ =>
    refine Returns.of_ok fun h' hh => ?_
    obtain ⟨call, hcall, hh⟩ := bind_eq_ok.mp hh
    cases call with
    | none =>
      cases hh
      exact hc
    | some call =>
      cases hh
      refine hc.emit ?_
      have hshape : Returns (callPushHandler P p handler t s) fun call =>
          ∀ e, call = some e → e.notice = none := by
        unfold callPushHandler
        split
        · split
          all_goals first
            | exact fun e he => by cases he; rfl
            | exact Returns.skip fun v e he => by cases he; rfl
        · split
          · refine Returns.skip fun v e he => ?_
            obtain ⟨_, _, rfl⟩ := Option.map_eq_some_iff.mp he
            rfl
          · split
            · refine Returns.skip fun v e he => ?_
              obtain ⟨_, _, rfl⟩ := Option.map_eq_some_iff.mp he
              rfl
            · exact fun e he => by cases he
      exact hshape.result hcall call rfl

theorem calm_handlerCallAll (hc : Calm b h) (list : List HandlerRef) (t : DataType)
    (s : DataSample) : Returns (handlerCallAll P h list t s) (Calm b) :=
  Sat.foldlM hc fun _ p _ hc => calm_handlerCall hc p t s

theorem calm_updateCurrentValue
    {push : Hub → ResRef → DataType → CString → DataSample → Except Fault Hub}
    (hpush : ∀ h dest t u s, Calm b h → Returns (push h dest t u s) (Calm b)) (hc : Calm b h)
    (r : ResRef) (t : DataType) (s : DataSample) :
    Returns (updateCurrentValue P push h r t s) (Calm b) := by
  unfold updateCurrentValue
  refine Returns.skip fun x => Returns.skip fun et => Returns.skip fun acceptable => ?_
  split
  · exact hc
  · have hstart : Calm b ((h.setResource r (x.install t s)).emit
        (.accepting r et x.pushHandlerList s)) := (hc.setResource r _).emit rfl
    refine (Sat.foldlM hstart fun h dest _ hc => hpush h dest t x.units s hc).bind fun h₁ hc₁ => ?_
    have hnote : Calm b (h₁.emit (.notifying r (h₁.registered x.pushHandlerList) s)) := hc₁.emit rfl
    exact calm_handlerCallAll hnote _ t s

theorem calm_resPush (fuel : Nat) (hc : Calm b h) (r : ResRef) (t : DataType) (u : CString)
    (s : DataSample) : Returns (resPush P fuel h r t u s) (Calm b) := by
  induction fuel generalizing h r t u s with
  | zero => exact id
  | succ fuel ih =>
    unfold resPush
    refine Returns.skip fun x => Returns.skip fun et => Returns.skip fun p => ?_
    have hpushed : Calm b ((((h.emit (.receiving r et s)).emit
        (.pushing r (obsContext h x) x t u s)).emitObs r p.events).setResource r p.res) := by
      have hreceived : Calm b (h.emit (.receiving r et s)) := hc.emit rfl
      have hlogged : Calm b ((h.emit (.receiving r et s)).emit
        (.pushing r (obsContext h x) x t u s)) := hreceived.emit rfl
      exact (hlogged.emitObs r p.events).setResource r p.res
    dsimp only
    split
    · exact hpushed
    · exact calm_updateCurrentValue (fun h dest t u s hc => ih hc dest t u s) hpushed r _ _

/-! ### Examples and routes -/

theorem calm_resSetJsonExample (fuel : Nat) (hc : Calm b h) (r : ResRef) (s : DataSample) :
    Returns (resSetJsonExample fuel h r s) (Calm b) := by
  induction fuel generalizing h r with
  | zero => simp [resSetJsonExample]
  | succ fuel ih =>
    unfold resSetJsonExample
    refine Returns.skip fun x => Sat.foldlM (hc.setResource r _) fun h dest _ hc => ?_
    unfold resSetJsonExample.passOn
    refine Returns.skip fun d => Returns.skip fun et => Returns.skip fun acceptable => ?_
    split
    · exact ih hc dest
    · exact hc

theorem calm_unlinkSource (hc : Calm b h) (dest : ResRef) :
    Returns (unlinkSource h dest) (Calm b) := by
  unfold unlinkSource
  refine Returns.skip fun d => ?_
  split
  · exact hc
  · exact (hc.modifyResource _ _).bind fun h₁ hc₁ => hc₁.modifyResource _ _

theorem calm_linkSource (hc : Calm b h) (dest src : ResRef) :
    Returns (linkSource h dest src) (Calm b) :=
  (hc.modifyResource _ _).bind fun _ hc₁ => hc₁.modifyResource _ _

theorem calm_propagateExample (fuel : Nat) (hc : Calm b h) (dest src : ResRef) :
    Returns (propagateExample fuel h dest src) (Calm b) := by
  unfold propagateExample
  refine Returns.skip fun x => ?_
  split
  · exact hc
  · unfold resSetJsonExample.passOn
    refine Returns.skip fun d => Returns.skip fun et => Returns.skip fun acceptable => ?_
    split
    · exact calm_resSetJsonExample fuel hc dest _
    · exact hc

theorem calm_flagConfigChange (hc : Calm b h) (r : ResRef) (setting : Setting) :
    Returns (flagConfigChange h r setting) (Calm b) :=
  (hc.configured r setting).modifyResource r _

theorem calm_clearUnits (hc : Calm b h) (dest : ResRef) :
    Returns (clearUnits P h dest) (Calm b) := by
  unfold clearUnits
  refine Returns.skip fun d => Returns.skip fun et => ?_
  split
  · exact hc.setResource dest _
  · exact hc

theorem calm_resSetSource (fuel : Nat) (hc : Calm b h) (dest : ResRef) (src : Option ResRef) :
    Returns (resSetSource P fuel h dest src) fun p => Calm b p.1 := by
  unfold resSetSource
  refine Returns.skip fun d => ?_
  split
  · exact hc
  · refine (calm_unlinkSource hc dest).bind fun h₁ hc₁ => ?_
    cases src with
    | none => exact (calm_clearUnits hc₁ dest).bind fun h₂ hc₂ => hc₂.configured dest .noSource
    | some src =>
      have hrouting : Calm b (h₁.emit (.routing dest src)) := hc₁.emit rfl
      refine Returns.skip fun loop => ?_
      split
      · show Calm b (if _ then _ else _)
        split
        · exact hrouting.configured dest .noSource
        · exact hrouting
      · refine (calm_linkSource hrouting dest src).bind fun h₂ hc₂ => ?_
        refine (calm_propagateExample fuel hc₂ dest src).bind fun h₃ hc₃ => ?_
        refine (calm_flagConfigChange hc₃ src .route).bind fun h₄ hc₄ => ?_
        exact (calm_flagConfigChange hc₄ dest .route).bind fun h₅ hc₅ => hc₅

/-! ### Settings -/

theorem calm_resSetOverride (fuel : Nat) (hc : Calm b h) (r : ResRef) (t : DataType)
    (s : DataSample) : Returns (resSetOverride P fuel h r t s) (Calm b) := by
  unfold resSetOverride
  refine Returns.skip fun x => Returns.skip fun et => Returns.skip fun acceptable => ?_
  split
  · exact calm_updateCurrentValue (fun h dest t u s hc => calm_resPush fuel hc dest t u s)
      (hc.setResource r _) r _ _
  · exact hc.setResource r _

theorem calm_resRemoveOverride (fuel : Nat) (hc : Calm b h) (r : ResRef) :
    Returns (resRemoveOverride P fuel h r) (Calm b) := by
  unfold resRemoveOverride
  refine Returns.skip fun x => Returns.skip fun et => ?_
  have hnoted : Calm b (h.emit (.unoverriding et x)) := hc.emit rfl
  dsimp only
  split
  · exact hnoted
  · refine Returns.skip fun restored => ?_
    split
    · exact calm_updateCurrentValue (fun h dest t u s hc => calm_resPush fuel hc dest t u s)
        (hnoted.setResource r _) r _ _
    · exact hnoted.setResource r _

theorem calm_resSetDefault (fuel : Nat) (hc : Calm b h) (r : ResRef) (t : DataType)
    (s : DataSample) : Returns (resSetDefault P fuel h r t s) (Calm b) := by
  unfold resSetDefault
  refine Returns.skip fun x => Returns.skip fun et => Returns.skip fun acceptable =>
    Returns.skip fun onDefault => ?_
  split
  · exact calm_updateCurrentValue (fun h dest t u s hc => calm_resPush fuel hc dest t u s)
      (hc.setResource r _) r _ _
  · exact hc.setResource r _

theorem calm_modifyObs (hc : Calm b h) (r : ResRef)
    (f : ObsContext → Observation → Except Fault (Observation × List ObsEvent)) :
    Returns (modifyObs h r f) (Calm b) := by
  unfold modifyObs
  refine Returns.skip fun x => ?_
  split
  · exact Returns.skip fun p => (hc.emitObs r p.2).setResource r _
  · exact id

theorem calm_setFilter (hc : Calm b h) (r : ResRef) (set : Observation → Observation) :
    Returns (setFilter set h r) (Calm b) :=
  (calm_modifyObs hc r _).bind fun _ hc₁ => calm_flagConfigChange hc₁ r .filter

theorem calm_resSetTransform (hc : Calm b h) (r : ResRef) (t : TransformType) :
    Returns (resSetTransform h r t) (Calm b) :=
  (calm_modifyObs hc r _).bind fun _ hc₁ => (hc₁.modifyResource r _).bind fun _ hc₂ =>
    calm_flagConfigChange hc₂ r .transform

theorem calm_resSetJsonExtraction (hc : Calm b h) (r : ResRef) (spec : CString) :
    Returns (resSetJsonExtraction h r spec) (Calm b) :=
  (calm_modifyObs hc r _).bind fun _ hc₁ => hc₁.configured r .jsonExtraction

theorem calm_resMarkOptional (hc : Calm b h) (r : ResRef) :
    Returns (resMarkOptional h r) (Calm b) := by
  unfold resMarkOptional
  refine Returns.skip fun x => ?_
  split
  · exact hc.setResource r _
  · exact id

theorem calm_resRestoreBackup (fuel : Nat) (hc : Calm b h) (r : ResRef) :
    Returns (resRestoreBackup P fuel h r) (Calm b) := by
  unfold resRestoreBackup
  refine Returns.skip fun x => ?_
  split
  · exact hc
  · split
    · exact hc
    · next content _ =>
      split
      · refine Returns.skip fun read => ?_
        obtain ⟨o, evs, newest⟩ := read
        have hnoted : Calm b (h.emit (.restoring r h.env content)) := hc.emit rfl
        have hread := (hnoted.emitObs r evs).setResource r { x with cls := .observation o }
        dsimp only
        split
        · exact calm_resPush fuel hread r _ _ _
        · exact hread
      · exact id

/-! ### Replacement and deletion -/

theorem calm_moveSource (hc : Calm b h) (src dest : ResRef) :
    Returns (moveSource h src dest) (Calm b) := by
  unfold moveSource
  refine Returns.skip fun x => ?_
  split
  · exact hc
  · exact (hc.modifyResource _ _).bind fun _ hc₁ => (hc₁.modifyResource _ _).bind fun _ hc₂ =>
      hc₂.modifyResource _ _

theorem calm_moveDests (hc : Calm b h) (src dest : ResRef) (dests : List ResRef) :
    Returns (moveDests src dest h dests) (Calm b) := by
  induction dests generalizing h with
  | nil => exact hc
  | cons d rest ih =>
    unfold moveDests
    exact (hc.modifyResource _ _).bind fun _ hc₁ => (hc₁.modifyResource _ _).bind fun _ hc₂ =>
      (hc₂.modifyResource _ _).bind fun _ hc₃ => ih hc₃

theorem calm_resMoveAdminSettings (hc : Calm b h) (src dest : ResRef) (et : EntryType) :
    Returns (resMoveAdminSettings P h src dest et) (Calm b) := by
  unfold resMoveAdminSettings
  refine Returns.skip fun s => Returns.skip fun d => ?_
  refine (calm_moveSource ((hc.setResource src _).setResource dest _)
    src dest).bind fun h₁ hc₁ => ?_
  exact Returns.skip fun s => calm_moveDests hc₁ src dest _

theorem Calm.dropHandlers (hc : Calm b h) (list : List HandlerRef) :
    Calm b (list.foldl (fun h p => h.setHandler p none) h) := by
  induction list generalizing h with
  | nil => exact hc
  | cons p list ih => exact ih (hc.setHandler p none)

theorem calm_destructObs (hc : Calm b h) (r : ResRef) (x : Resource) (o : Observation) :
    Calm b (destructObs P h r x o) := by
  unfold destructObs
  dsimp only
  split
  · exact (hc.emitObs r _).trans ⟨rfl, rfl, rfl, rfl⟩
  · exact hc.emitObs r _

theorem calm_releaseResource (hc : Calm b h) (r : ResRef) :
    Returns (releaseResource P h r) (Calm b) := by
  unfold releaseResource
  refine Returns.skip fun x => ?_
  dsimp only
  split
  · exact id
  · refine Calm.trans (Calm.dropHandlers ?_ x.pushHandlerList) ⟨rfl, rfl, rfl, rfl⟩
    split
    · exact calm_destructObs hc r x _
    · exact hc

theorem calm_dropDestinations (k : Nat) (hc : Calm b h) (r : ResRef) :
    Returns (dropDestinations P k h r) (Calm b) := by
  induction k generalizing h with
  | zero => exact id
  | succ k ih =>
    unfold dropDestinations
    refine Returns.skip fun x => ?_
    split
    · exact hc
    · exact (calm_resSetSource k hc _ none).bind fun p hp => ih hp

theorem calm_resDeleteObservation (fuel : Nat) (hc : Calm b h) (r : ResRef) :
    Returns (resDeleteObservation P fuel h r) (Calm b) := by
  unfold resDeleteObservation dropSettings
  refine Sat.bind (Q := Calm b) ?_ fun h₁ hc₁ => calm_releaseResource hc₁ r
  refine (hc.modifyResource r _).bind fun h₁ hc₁ => ?_
  refine (calm_resSetSource fuel hc₁ r none).bind fun p hp => ?_
  exact (calm_dropDestinations fuel hp r).bind fun h₂ hc₂ => hc₂.modifyResource r _

theorem calm_resAddPushHandler (hc : Calm b h) (r : ResRef) (t : DataType) :
    Returns (resAddPushHandler h r t) fun p => Calm b p.1 := by
  unfold resAddPushHandler
  have hset : Calm b { h.setHandler h.nextHandler (some ⟨t, r⟩) with
      nextHandler := h.nextHandler + 1 } :=
    (hc.setHandler h.nextHandler (some ⟨t, r⟩)).trans ⟨rfl, rfl, rfl, rfl⟩
  exact (hset.modifyResource r _).bind fun h₁ hc₁ => hc₁

theorem calm_handlerRemove (hc : Calm b h) (p : HandlerRef) :
    Returns (handlerRemove h p) (Calm b) := by
  unfold handlerRemove
  split
  · exact hc
  · exact (hc.modifyResource _ _).bind fun h₁ hc₁ => hc₁.setHandler p none

end MangOH.DataHub
