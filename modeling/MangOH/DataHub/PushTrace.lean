import MangOH.DataHub.WellFormed
import Mathlib.Logic.Relation

/-! Pushes, overrides and defaults are made of atomic changes, and read no payload at a wrong
type. -/
namespace MangOH.DataHub

open Outcome

variable {P : Platform} {b h h' : Hub} {r : ResRef} {x y : Resource} {t : DataType}
  {s : DataSample} {u : CString} {entry : Entry} {evs : List Event} {B : Fault → Prop}

/-- A state that atomic changes lead to from `b`. -/
structure Steps (P : Platform) (b h : Hub) : Prop where
  wf : WellFormed h
  micros : Relation.ReflTransGen (Micro P) b h

theorem Steps.step (he : Steps P b h) (hm : Micro P h h') : Steps P b h' :=
  ⟨wellFormed_micro he.wf hm, he.micros.tail hm⟩

theorem Steps.notes (he : Steps P b h) (hn : Notes P h evs) :
    Steps P b { h with log := h.log ++ evs } :=
  he.step (.ambient ⟨rfl, rfl, rfl, rfl, Nat.le_refl _, rfl, rfl, rfl, rfl⟩ evs hn rfl)

/-- What has been logged since `b`, when no value is waiting for its handlers to be called. -/
def Settled (P : Platform) (b h : Hub) : Prop :=
  ∃ evs, h.log = b.log ++ evs ∧ Answered (asCalled P) evs

/-- Moreover the handlers of each value that has been accepted since `b` have been called. -/
structure Ext (P : Platform) (b h : Hub) : Prop extends Steps P b h where
  settled : Settled P b h

theorem Settled.refl (b : Hub) : Settled P b b := ⟨[], (List.append_nil _).symm, .nil⟩

theorem Settled.trans (hs : Settled P b h) (hs' : Settled P h h') : Settled P b h' := by
  obtain ⟨evs, hlog, ha⟩ := hs
  obtain ⟨evs', hlog', ha'⟩ := hs'
  exact ⟨evs ++ evs', by rw [hlog', hlog, List.append_assoc], ha.append ha'⟩

theorem settled_plain (hlog : h'.log = h.log ++ evs) (he : ∀ e ∈ evs, e.isPlain = true) :
    Settled P h h' := ⟨evs, hlog, answered_of_plain he⟩

theorem settled_same (hlog : h'.log = h.log) : Settled P h h' :=
  ⟨[], by rw [hlog, List.append_nil], .nil⟩

theorem Ext.refl (hwf : WellFormed b) : Ext P b b := ⟨⟨hwf, .refl⟩, .refl b⟩

theorem Ext.step (he : Ext P b h) (hm : Micro P h h') (hs : Settled P h h') : Ext P b h' :=
  ⟨he.toSteps.step hm, he.settled.trans hs⟩

theorem Ext.trans (he : Ext P b h) (he' : Ext P h h') : Ext P b h' :=
  ⟨⟨he'.wf, he.micros.trans he'.micros⟩, he.settled.trans he'.settled⟩

theorem Ext.ambient (he : Ext P b h) (hsame : SameCore h h') (hlog : h'.log = h.log) :
    Ext P b h' :=
  he.step (.ambient hsame [] .nil (by rw [hlog, List.append_nil])) (settled_same hlog)

theorem Ext.notes (he : Ext P b h) (hn : Notes P h evs) (ha : Answered (asCalled P) evs) :
    Ext P b { h with log := h.log ++ evs } :=
  ⟨he.toSteps.notes hn, he.settled.trans ⟨evs, rfl, ha⟩⟩

theorem sat_getResource (h : Hub) (r : ResRef) :
    Sat Bad (h.getResource r) fun x => h.resources r = some x := by
  unfold Hub.getResource
  split
  · assumption
  · exact id

theorem sat_getEntry (h : Hub) (e : EntryRef) :
    Sat Bad (h.getEntry e) fun entry => h.entries e = some entry := by
  unfold Hub.getEntry
  split
  · assumption
  · exact id

theorem sat_entryType (h : Hub) (x : Resource) :
    Sat Bad (h.entryType x) fun et =>
      ∃ entry, h.entries x.entryRef = some entry ∧ et = entry.type :=
  (sat_getEntry h x.entryRef).bind fun entry he => ⟨entry, he, rfl⟩

/-- An edit of one resource; the event log is the only other thing that grows. -/
theorem Edit.plain {updating : Bool} {et : EntryType} (hedit : Edit P r updating et x evs y) :
    ∀ e ∈ evs, e.isPlain = true := by
  have hobs : ∀ obsEvs : List ObsEvent, ∀ e ∈ obsEvs.map (Event.obs r), e.isPlain = true := by
    intro obsEvs e he
    obtain ⟨ev, _, rfl⟩ := List.mem_map.mp he
    rfl
  cases hedit <;> simp [Event.isPlain, or_imp, forall_and]

theorem Steps.edit (he : Steps P b h) (hx : h.resources r = some x)
    (hentry : h.entries x.entryRef = some entry)
    (hedit : Edit P r h.isUpdateInProgress entry.type x evs y)
    (hreads : ∀ op ∈ y.readOps, op.id < h.nextRead) (hsame : SameCore (h.setResource r y) h')
    (hlog : h'.log = h.log ++ evs) : Steps P b h' :=
  he.step (.edit hx hentry hedit hreads hsame hlog)

theorem Ext.edit (he : Ext P b h) (hx : h.resources r = some x)
    (hentry : h.entries x.entryRef = some entry)
    (hedit : Edit P r h.isUpdateInProgress entry.type x evs y)
    (hreads : ∀ op ∈ y.readOps, op.id < h.nextRead) (hsame : SameCore (h.setResource r y) h')
    (hlog : h'.log = h.log ++ evs) : Ext P b h' :=
  ⟨he.toSteps.edit hx hentry hedit hreads hsame hlog,
    he.settled.trans (settled_plain hlog hedit.plain)⟩

theorem setResource_setResource (h : Hub) (r : ResRef) (x y : Resource) :
    (h.setResource r x).setResource r y = h.setResource r y := by
  simp [Hub.setResource]

theorem setResource_self (hx : h.resources r = some x) : h.setResource r x = h := by
  unfold Hub.setResource
  rw [← hx, Function.update_eq_self]

theorem readOps_of_cls (hc : y.cls = x.cls) : y.readOps = x.readOps := by
  unfold Resource.readOps
  rw [hc]

theorem WellFormed.reads_of_cls (hwf : WellFormed h) (hx : h.resources r = some x)
    (hc : y.cls = x.cls) : ∀ op ∈ y.readOps, op.id < h.nextRead := by
  rw [readOps_of_cls hc]
  exact hwf.reads r x hx

/-! ### Handlers -/

theorem answered_register (r : ResRef) (p : HandlerRef) (t : DataType) (value : Option DataSample) :
    Answered (asCalled P)
      (.registering r p :: (value.bind fun s => handlerCallOf P s (p, t)).toList) := by
  have hcall := @Answered.registered (asCalled P) r p
    (value.bind fun s => (calledWith P t s).map fun v => (s.timestamp, v)) _ .nil
  rw [List.append_nil] at hcall
  convert hcall using 3
  cases value with
  | none => rfl
  | some s => simp [handlerCallOf, Function.comp_def]

/-- A new handler is called with the current value. -/
theorem sat_register (he : Ext P b h) {p : HandlerRef} {handler : Handler}
    (hp : h.handlers p = some handler) (hs : s.type = t) :
    Sat Bad (handlerCall P (h.emit (.registering handler.listPtr p)) p t s) (Ext P b) := by
  rw [handlerCall_eq (h := h.emit (.registering handler.listPtr p)) hp hs]
  have hnotes := he.notes (.register p handler hp (some s)) (answered_register _ _ _ (some s))
  rw [List.append_cons] at hnotes
  exact hnotes

/-- The handlers of a resource are called with its new current value. -/
theorem sat_notify {g : Hub} (he : Steps P b h) (r : ResRef) (et : EntryType)
    (list : List HandlerRef) (hs : s.type = t) (hsettled : Settled P b g)
    (hinner : Settled P (g.emit (.accepting r et list s)) h) :
    Sat Bad (handlerCallAll P (h.emit (.notifying r (h.registered list) s)) list t s)
      (Ext P b) := by
  rcases handlerCallAll_eq (P := P) list (h.emit (.notifying r (h.registered list) s)) hs with
    ⟨hlive, hall⟩ | ⟨_, herr⟩
  · rw [hall]
    have hnotes := he.notes (.update r list s)
    rw [List.append_cons] at hnotes
    refine ⟨hnotes, hsettled.trans ?_⟩
    obtain ⟨inner, hlog, hinner⟩ := hinner
    have haccepted := @Answered.accepted (asCalled P) r et s _ _ _ (h.registered list)
      isCall_handlerCallOf rfl hinner .nil
    have hlist : (h.registered list).map Prod.fst = list := hlive
    rw [hlist, List.append_nil] at haccepted
    refine ⟨_, ?_, haccepted⟩
    show h.log ++ [_] ++ _ = _
    rw [hlog]
    simp [Hub.emit, Hub.registered]
  · rw [herr]
    exact id

/-! ### Pushes -/

/-- `UpdateCurrentValue` completes an edit that has got as far as the resource `y`. -/
theorem sat_updateCurrentValue
    {push : Hub → ResRef → DataType → CString → DataSample → Except Fault Hub}
    (hpush : ∀ b h dest t u s, Ext P b h → s.type = t → Sat Bad (push h dest t u s) (Ext P b))
    (he : Ext P b h) (hx : h.resources r = some x) (hentry : h.entries x.entryRef = some entry)
    (hedit : Edit P r h.isUpdateInProgress entry.type x evs (y.accept t s))
    (hcls : ClassOk entry.type y.cls) (hplace : y.entryRef = x.entryRef)
    (hreads : ∀ op ∈ y.readOps, op.id < h.nextRead) (hsame : SameCore (h.setResource r y) h')
    (hlog : h'.log = h.log ++ evs) (hs : s.type = t) :
    Sat Bad (updateCurrentValue P push h' r t s) (Ext P b) := by
  have hy : h'.resources r = some y := by
    rw [hsame.resources]
    simp [Hub.setResource]
  have hentry' : h'.entries y.entryRef = some entry := by
    rw [hsame.entries, hplace]
    exact hentry
  have htype : h'.entryType y = .ok entry.type := by
    simp [Hub.entryType, Hub.getEntry, hentry']
  have hreads' : ∀ op ∈ (y.accept t s).readOps, op.id < h.nextRead := by
    rw [readOps_of_cls (cls_accept y t s)]
    exact hreads
  unfold updateCurrentValue
  rw [show h'.getResource r = .ok y from getResource_ok.mpr hy]
  show Sat Bad (h'.entryType y >>= _) _
  rw [htype]
  show Sat Bad (isAcceptable entry.type y t >>= _) _
  rw [isAcceptable_eq hcls t]
  unfold Resource.accept at hedit hreads'
  cases hacc : y.acceptable t with
  | false =>
    rw [hacc] at hedit hreads'
    exact he.edit hx hentry hedit hreads' hsame hlog
  | true =>
    rw [hacc] at hedit hreads'
    have hsame' : SameCore (h.setResource r (y.install t s))
        (h'.setResource r (y.install t s)) := by
      refine ⟨hsame.entries, ?_, hsame.nextEntry, hsame.nextRes, hsame.nextRead,
        hsame.updating, hsame.handlers, hsame.nextHandler, hsame.orphanTimers⟩
      simp [Hub.setResource, hsame.resources]
    have he' : Ext P b (h'.setResource r (y.install t s)) :=
      he.edit hx hentry hedit hreads' hsame' hlog
    have hnote : Steps P b ((h'.setResource r (y.install t s)).emit
        (.accepting r entry.type y.pushHandlerList s)) :=
      he'.toSteps.notes (.accept (h := h'.setResource r (y.install t s)) (x := y.install t s)
        (Function.update_self ..) hentry' s rfl)
    have hdests : Sat Bad (y.destList.foldlM (fun h dest => push h dest t y.units s)
        ((h'.setResource r (y.install t s)).emit (.accepting r entry.type y.pushHandlerList s)))
        (Ext P ((h'.setResource r (y.install t s)).emit
          (.accepting r entry.type y.pushHandlerList s))) :=
      Sat.foldlM (.refl hnote.wf) fun h dest _ he => hpush _ h dest t y.units s he hs
    refine hdests.bind fun h₁ he₁ => ?_
    exact sat_notify ⟨he₁.wf, hnote.micros.trans he₁.micros⟩ r entry.type y.pushHandlerList hs
      he'.settled he₁.settled

theorem PushOutcome.readOps {et : EntryType} {p : Pushed} (h : PushOutcome P et x u p) :
    p.res.readOps.map (·.id) = x.readOps.map (·.id) := by
  have hrun := h.run
  unfold Resource.readOps
  generalize x.cls = c at hrun
  generalize p.res.cls = c' at hrun
  generalize p.events = evs at hrun
  cases hrun with
  | refl => rfl
  | run _ hreads => simp [hreads]

theorem WellFormed.reads_of_ids (hwf : WellFormed h) (hx : h.resources r = some x)
    (hids : y.readOps.map (·.id) = x.readOps.map (·.id)) :
    ∀ op ∈ y.readOps, op.id < h.nextRead := by
  intro op hop
  have hmem : op.id ∈ x.readOps.map (·.id) := hids ▸ List.mem_map_of_mem hop
  obtain ⟨op', hop', heq⟩ := List.mem_map.mp hmem
  exact heq ▸ hwf.reads r x hx op' hop'

theorem sat_resPush (fuel : Nat) (he : Ext P b h) (r : ResRef) (u : CString) (hs : s.type = t) :
    Sat Bad (resPush P fuel h r t u s) (Ext P b) := by
  induction fuel generalizing b h r t u s with
  | zero => exact id
  | succ fuel ih =>
    unfold resPush
    refine (sat_getResource h r).bind fun x hx => ?_
    refine (sat_entryType h x).bind ?_
    rintro et ⟨entry, hentry, rfl⟩
    have hcls := he.wf.cls r x entry hx hentry
    have htyped := he.wf.typed r x entry hx hentry
    refine ((sat_resPushLocal fits_of_notFatal htyped hcls rfl hs).weaken
      notFatal_of_bad).and_result.bind ?_
    rintro p ⟨hp, hlocal⟩
    obtain ⟨hres, hsample⟩ := hp.typed htyped
    have hreads : ∀ op ∈ p.res.readOps, op.id < h.nextRead :=
      he.wf.reads_of_ids hx hp.readOps
    have hedit : Edit P r h.isUpdateInProgress entry.type x
        (.receiving r entry.type s :: .pushing r (obsContext h x) x t u s ::
          p.events.map (.obs r)) p.accepted :=
      .push _ t u s hs p rfl hp hlocal
    let h₁ := (h.emit (.receiving r entry.type s)).emit (.pushing r (obsContext h x) x t u s)
    have hsame : SameCore (h.setResource r p.res) ((h₁.emitObs r p.events).setResource r p.res) :=
      ⟨rfl, rfl, rfl, rfl, Nat.le_refl _, rfl, rfl, rfl, rfl⟩
    have hlog : ((h₁.emitObs r p.events).setResource r p.res).log = h.log ++
        .receiving r entry.type s :: .pushing r (obsContext h x) x t u s ::
          p.events.map (.obs r) := by
      simp [h₁, Hub.setResource, Hub.emitObs, Hub.emit]
    unfold Pushed.accepted at hedit
    dsimp only
    split
    · next hnone =>
      rw [hnone] at hedit
      exact he.edit hx hentry hedit hreads hsame hlog
    · next t' s' hsome =>
      rw [hsome] at hedit
      exact sat_updateCurrentValue (fun _ h dest t u s he hs => ih he dest u hs) he hx hentry hedit
        (hp.run.classOk hcls) hp.samePlace.entryRef hreads hsame hlog (hsample t' s' hsome)

end MangOH.DataHub
