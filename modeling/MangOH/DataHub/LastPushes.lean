import MangOH.DataHub.PushRecords

/-! The last value pushed to a resource outlives the overrides and defaults of the administrator. -/
namespace MangOH.DataHub

open Outcome

variable {P : Platform} {h h' : Hub} {et : EntryType} {r : ResRef} {x y : Resource}
  {t : DataType} {s : DataSample} {u : CString} {log evs : List Event} {entry : Entry}

/-- A sample as a push with some units leaves it. -/
def DataSample.pushed (s : DataSample) (u : CString) : DataSample :=
  { s with via := u, hops := s.hops + 1 }

/-- The pushed value on record. -/
def Resource.recorded (x : Resource) : Option (DataType × DataSample) :=
  x.pushedValue.map fun s => (x.pushedType, s)

/-- What has been pushed last to each resource, or to one that it has replaced, after one more
event. -/
def notePush (last : ResRef → Option (DataType × DataSample)) :
    Event → ResRef → Option (DataType × DataSample)
  | .pushing r _ _ t u s => Function.update last r (some (t, s.pushed u))
  | .replacing old new _ _ _ => Function.update last new (last old)
  | _ => last

/-- What has been pushed last to each resource. -/
def lastPush (log : List Event) : ResRef → Option (DataType × DataSample) :=
  log.foldl notePush fun _ => none

/-- Units with which nothing is refused. -/
def Resource.takesUnits (x : Resource) (u : CString) : Bool :=
  match x.cls with
  | .ioPoint _ _ => decide (u = [] ∨ x.units = [] ∨ u = x.units)
  | _ => true

/-- Values are pushed to Inputs and Outputs at their data type and with their units, and to nothing
while its settings change. Where an Input or Output takes the place of a Placeholder with a pushed
value, it is of the type of that value. -/
def pushesTaken : Event → Bool
  | .pushing _ _ x t u _ => x.acceptable t && !x.isConfigChanging && x.takesUnits u
  | .replacing _ _ x et y =>
    !et.isIo || x.pushedValue.isNone || decide (x.pushedType = y.currentType)
  | _ => true

/-! ### One push -/

theorem not_refusesUnits (hu : x.takesUnits u = true) {fixed : DataType} {mandatory : Bool}
    (hx : x.cls = .ioPoint fixed mandatory) : ¬ x.refusesUnits u := by
  unfold Resource.takesUnits at hu
  rw [hx] at hu
  rintro ⟨hu', hunits, hne⟩
  have := of_decide_eq_true hu
  tauto

theorem recorded_accept (x : Resource) (t : DataType) (s : DataSample) :
    (x.accept t s).recorded = x.recorded := by
  unfold Resource.accept
  split <;> rfl

theorem recorded_accepted (p : Pushed) : p.accepted.recorded = p.res.recorded := by
  unfold Pushed.accepted
  split
  · rfl
  · exact recorded_accept _ _ _

/-- A push to anything but an Observation is noted first. -/
theorem resPushLocal_noted {ctx : ObsContext} (het : et ≠ .observation) :
    resPushLocal P ctx et x t u s =
      let noted := x.record x.cls t (s.pushed u)
      if x.isConfigChanging then pure ⟨noted, [], none⟩
      else applyOverride et noted t u (s.pushed u) >>= fun a =>
        conform P ctx.env et noted a.1 a.2.1 a.2.2 >>= fun c => pure ⟨c.1, [], c.2⟩ := by
  cases et with
  | observation => exact absurd rfl het
  | _ => rfl

/-- Whatever becomes of a push, it goes on record. -/
theorem recorded_pushLocal {ctx : ObsContext} {p : Pushed} (het : et ≠ .observation)
    (hlocal : resPushLocal P ctx et x t u s = .ok p) :
    p.accepted.recorded = some (t, s.pushed u) := by
  rw [recorded_accepted]
  rw [resPushLocal_noted het] at hlocal
  dsimp only at hlocal
  split at hlocal
  · cases hlocal
    rfl
  · obtain ⟨a, -, hlocal⟩ := bind_eq_ok.mp hlocal
    obtain ⟨c, hc, hlocal⟩ := bind_eq_ok.mp hlocal
    cases hlocal
    cases hio : et.isIo with
    | true =>
      rw [conform_io hio hc]
      rfl
    | false =>
      unfold conform at hc
      cases et with
      | input | output => cases hio
      | observation => exact absurd rfl het
      | nameSpace => cases hc
      | placeholder =>
        dsimp only at hc
        cases hc
        dsimp only
        split <;> rfl

/-- A value of the type of an Input or Output goes through as it is. -/
theorem resPushLocal_io {ctx : ObsContext} (hcls : ClassOk et x.cls) (hio : et.isIo = true)
    (hsusp : x.isConfigChanging = false) (hacc : x.acceptable t = true)
    (hu : x.takesUnits u = true) (ho : x.overridden = false) :
    resPushLocal P ctx et x t u s =
      .ok ⟨x.record x.cls t (s.pushed u), [], some (t, s.pushed u)⟩ := by
  obtain ⟨fixed, mandatory, hfixed⟩ := ioPoint_of_isIo hcls hio
  have ht : t = fixed := by
    rw [acceptable_ioPoint hfixed] at hacc
    exact of_decide_eq_true hacc
  subst ht
  have hnoted : (x.record x.cls t (s.pushed u)).overridden = false :=
    (overridden_record (P := P) (.refl x.cls) t (s.pushed u)).trans ho
  have hover : applyOverride et (x.record x.cls t (s.pushed u)) t u (s.pushed u) =
      .ok (t, u, s.pushed u) := by
    rw [applyOverride, resIsOverridden_eq (x := x.record x.cls t (s.pushed u)) hcls, hnoted]
    rfl
  have hconform : conform P ctx.env et (x.record x.cls t (s.pushed u)) t u (s.pushed u) =
      .ok (x.record x.cls t (s.pushed u), some (t, s.pushed u)) := by
    have hrefuse : ¬ (x.record x.cls t (s.pushed u)).refusesUnits u := not_refusesUnits hu hfixed
    have hget : ioPointGetDataType (x.record x.cls t (s.pushed u)) = .ok t := by
      rw [ioPointGetDataType, show (x.record x.cls t (s.pushed u)).cls = _ from hfixed]
    have hcoerce : doTypeCoercion P ctx.env t t (s.pushed u) = .ok (s.pushed u) := if_pos rfl
    unfold Resource.refusesUnits at hrefuse
    unfold conform
    cases et with
    | input | output =>
      dsimp only
      rw [if_neg hrefuse, hget, ok_bind, hcoerce]
      rfl
    | _ => cases hio
  rw [resPushLocal_noted (by rintro rfl; cases hio)]
  dsimp only
  rw [if_neg (by simp [hsusp]), hover, ok_bind]
  dsimp only
  rw [hconform]
  rfl

/-! ### The current value -/

/-- The pushed value on record is of a type that the resource accepts, and the current value where
no override is set. -/
structure Resource.ShowsPush (x : Resource) : Prop where
  record : x.pushedValue ≠ none → x.acceptable x.pushedType = true
  shown : x.overrideValue = none → ∀ s, x.pushedValue = some s →
    x.currentValue = some s ∧ x.currentType = x.pushedType

/-- Changes elsewhere in the resource do not matter. -/
theorem Resource.ShowsPush.congr (hx : x.ShowsPush)
    (hacc : ∀ t, y.acceptable t = x.acceptable t) (hval : y.pushedValue = x.pushedValue)
    (htype : y.pushedType = x.pushedType) (hov : y.overrideValue = none → x.overrideValue = none)
    (hcur : y.currentValue = x.currentValue) (hcurType : y.currentType = x.currentType) :
    y.ShowsPush := by
  refine ⟨fun hsome => ?_, fun hnone s hs => ?_⟩
  · rw [htype, hacc]
    exact hx.record (hval ▸ hsome)
  · rw [hcur, hcurType, htype]
    exact hx.shown (hov hnone) s (hval ▸ hs)

/-- What goes on record is accepted at once. -/
theorem showsPush_accept (hacc : x.acceptable t = true) (hval : x.pushedValue = some s)
    (htype : x.pushedType = t) : (x.accept t s).ShowsPush := by
  have hinstall : x.accept t s = x.install t s := if_pos hacc
  rw [hinstall]
  refine ⟨fun _ => ?_, fun _ s' hs' => ?_⟩
  · show x.acceptable x.pushedType = true
    rw [htype, hacc]
  · cases hval.symm.trans hs'
    exact ⟨rfl, htype.symm⟩

/-- Nothing is on record. -/
theorem showsPush_of_none (hnone : y.pushedValue = none) : y.ShowsPush :=
  ⟨fun hsome => absurd hnone hsome, fun _ s hs => by cases hnone.symm.trans hs⟩

/-- Something else than the record is accepted, but an override is set. -/
theorem showsPush_accept_other (hov : x.overrideValue ≠ none)
    (hrecord : x.pushedValue ≠ none → x.acceptable x.pushedType = true) (t : DataType)
    (s : DataSample) : (x.accept t s).ShowsPush := by
  unfold Resource.accept
  split
  · exact ⟨hrecord, fun hnone => absurd hnone hov⟩
  · exact ⟨hrecord, fun hnone => absurd hnone hov⟩

theorem PushOutcome.showsPush {ctx : ObsContext} {p : Pushed} (hcls : ClassOk et x.cls)
    (hp : PushOutcome P et x u p) (hlocal : resPushLocal P ctx et x t u s = .ok p)
    (hok : pushesTaken (.pushing r ctx x t u s) = true) (hx : x.ShowsPush) :
    p.accepted.ShowsPush := by
  simp only [pushesTaken, Bool.and_eq_true, Bool.not_eq_true'] at hok
  obtain ⟨⟨hacc, hsusp⟩, hu⟩ := hok
  have hrecord := acceptable_record hcls hp hlocal hacc
  cases hp with
  | filtered hc => exact hx.congr hc.acceptable rfl rfl id rfl rfl
  | suspended hc t s hs hv hsusp' => cases hsusp.symm.trans hsusp'
  | overridden hc t s hs hv _ ho value hvalue =>
    exact showsPush_accept_other (x := x.record _ t s) (by simp [Resource.record, hvalue])
      (fun _ => hrecord) _ _
  | mismatched t s hs hv _ ho hio hrefuse =>
    obtain ⟨fixed, mandatory, hfixed⟩ := ioPoint_of_isIo hcls hio
    exact absurd hrefuse (not_refusesUnits hu hfixed)
  | coerced t' s' hs hv _ ho hio hu' fixed mandatory hfixed coerced =>
    have hthrough : resPushLocal P ctx et x t u s =
        .ok ⟨x.record x.cls t (s.pushed u), [], some (t, s.pushed u)⟩ :=
      resPushLocal_io hcls hio hsusp hacc hu ho
    have heq := hthrough.symm.trans hlocal
    obtain ⟨hres, -, hsample⟩ := Pushed.mk.inj (Except.ok.inj heq)
    obtain ⟨rfl, rfl⟩ := Prod.mk.inj (Option.some.inj hsample)
    have hval := congrArg Resource.pushedValue hres
    have htype := congrArg Resource.pushedType hres
    exact showsPush_accept hacc hval.symm htype.symm
  | taken hc t s hs hv _ ho hio units =>
    refine showsPush_accept ?_ rfl rfl
    exact acceptable_of_not_io (hc.classOk hcls) hio _

theorem Resource.ShowsPush.unoverride (hx : x.ShowsPush) : x.unoverride.ShowsPush := by
  unfold Resource.unoverride
  split
  · exact hx
  · cases hval : x.pushedValue with
    | none =>
      refine showsPush_of_none ?_
      split
      · rw [pushedValue_accept]
      · rfl
    | some s =>
      have hacc := hx.record (by simp [hval])
      have hfallback : x.fallback = some (x.pushedType, s) := by
        simp [Resource.fallback, Resource.fallback.usable, hacc, hval]
      rw [hfallback]
      exact showsPush_accept hacc rfl rfl

theorem Resource.ShowsPush.withDefault (hx : x.ShowsPush) (t : DataType) (s : DataSample) :
    (x.withDefault t s).ShowsPush := by
  unfold Resource.withDefault
  dsimp only
  split
  · next hdefault =>
    refine showsPush_of_none ?_
    rw [pushedValue_accept]
    by_contra hsome
    have hacc := hx.record hsome
    simp only [Resource.operatesOnDefault, Bool.and_eq_true, Bool.or_eq_true, Bool.not_eq_true',
      Option.isNone_iff_eq_none] at hdefault
    rcases hdefault.2 with hnone | hrefused
    · exact hsome hnone
    · exact absurd (hacc.symm.trans hrefused) (by simp)
  · exact hx.congr (fun _ => rfl) rfl rfl id rfl rfl

theorem Edit.showsPush {updating : Bool} {x' : Resource} (hcls : ClassOk et x.cls)
    (hedit : Edit P r updating et x evs x') (hok : ∀ e ∈ evs, pushesTaken e = true)
    (hx : x.ShowsPush) : x'.ShowsPush := by
  have hobs : ∀ (o o' : Observation) (y : Resource), x.cls = .observation o →
      y.cls = .observation o' → y.pushedValue = x.pushedValue → y.pushedType = x.pushedType →
      y.currentValue = x.currentValue → y.currentType = x.currentType →
      y.overrideValue = x.overrideValue → y.ShowsPush := by
    intro o o' y ho hy hval htype hcur hcurType hov
    refine hx.congr (fun t => ?_) hval htype (fun hnone => hov ▸ hnone) hcur hcurType
    simp [Resource.acceptable, ho, hy]
  cases hedit with
  | push ctx t u s hs p hctx hp hlocal =>
    exact hp.showsPush hcls hlocal (hok (.pushing r ctx x t u s) (by simp)) hx
  | override t s hs hv =>
    exact showsPush_accept_other (x := { x with overrideValue := some s, overrideType := t })
      (by simp) hx.record t s
  | unoverride => exact hx.unoverride
  | default t s hs hv => exact hx.withDefault t s
  | optional t mandatory hio =>
    refine hx.congr (fun _ => ?_) rfl rfl id rfl rfl
    simp [Resource.acceptable, hio]
  | observe ho => exact hobs _ _ _ ho rfl rfl rfl rfl rfl rfl
  | configure ho hstep setting hset pushedValue hp =>
    rcases hp with rfl | ⟨-, rfl⟩
    · exact hobs _ _ _ ho rfl rfl rfl rfl rfl rfl
    · exact showsPush_of_none rfl
  | extraction ho => exact hobs _ _ _ ho rfl rfl rfl rfl rfl rfl
  | restore env content ho => exact hobs _ _ _ ho rfl rfl rfl rfl rfl rfl
  | _ => exact hx.congr (fun _ => rfl) rfl rfl id rfl rfl

theorem push_invariant :
    ResourceInvariant P (pushesTaken · = true) fun _ x => x.ShowsPush where
  unrouted _ _ := ⟨fun hx => ⟨hx.record, hx.shown⟩, fun hx => ⟨hx.record, hx.shown⟩⟩
  edit _ _ _ _ _ _ hcls _ hedit hok hx := hedit.showsPush hcls hok hx
  created _ _ _ hy := showsPush_of_none hy.blank.pushedValue
  handlers _ _ _ hx := ⟨hx.record, hx.shown⟩
  moved old new e et et' x y hre hcls _ hy hok hx := by
    obtain ⟨hval, htype, hov, -⟩ := moveValues_moved (P := P) x y et'
    have hacc : (moveValues P x y et').pushedValue ≠ none →
        (moveValues P x y et').acceptable x.pushedType = true := by
      intro hsome
      rw [hval] at hsome
      have hmoved := cls_moveValues (P := P) x y et'
      cases hio : et'.isIo with
      | true =>
        obtain ⟨fixed, mandatory, hyc⟩ := ioPoint_of_isIo hy.classOk hio
        rw [acceptable_ioPoint (hmoved.trans hyc), ← hy.fixed hyc]
        simpa [pushesTaken, hio, hsome] using hok
      | false => exact acceptable_of_not_io (hmoved.symm ▸ hy.classOk) hio _
    refine ⟨fun hsome => htype ▸ hacc hsome, fun hnone s hs => ?_⟩
    rw [hval] at hs
    obtain ⟨hcur, hcurType⟩ := hx.shown (hov ▸ hnone) s hs
    rw [htype]
    rcases moveValues_current (P := P) x y et' with ⟨⟨hio, hne⟩, -⟩ | ⟨-, hv, ht⟩
    · have hokType : x.pushedType = y.currentType := by
        simpa [pushesTaken, hio, hs] using hok
      exact absurd (hcurType.trans hokType) hne
    · exact ⟨hv.trans hcur, ht.trans hcurType⟩

/-! ### The record -/

theorem lastPush_append (log evs : List Event) :
    lastPush (log ++ evs) = evs.foldl notePush (lastPush log) := List.foldl_append

/-- Nothing is pushed and nothing replaced. -/
theorem foldl_notePush_quiet (hquiet : ∀ e ∈ evs, e.traced = false)
    (last : ResRef → Option (DataType × DataSample)) : evs.foldl notePush last = last := by
  induction evs with
  | nil => rfl
  | cons e evs ih =>
    have he : notePush last e = last := by
      have := hquiet e List.mem_cons_self
      cases e <;> first | rfl | cases this
    rw [List.foldl_cons, he, ih fun e he => hquiet e (List.mem_cons_of_mem _ he)]

/-- The record of each resource other than an Observation is the last push. -/
structure PushesRecorded (h : Hub) : Prop where
  fresh : ∀ r, h.nextRes ≤ r → lastPush h.log r = none
  recorded : ∀ r x, h.resources r = some x → (∀ o, x.cls ≠ .observation o) →
    x.recorded = lastPush h.log r

theorem PushesRecorded.quiet (hrec : PushesRecorded h) (hlog : h'.log = h.log ++ evs)
    (hquiet : ∀ e ∈ evs, e.traced = false) (hnext : h.nextRes ≤ h'.nextRes)
    (hold : ∀ r x', h'.resources r = some x' → (∀ o, x'.cls ≠ .observation o) →
      ∃ x, h.resources r = some x ∧ (∀ o, x.cls ≠ .observation o) ∧ x'.recorded = x.recorded) :
    PushesRecorded h' := by
  have hlast : lastPush h'.log = lastPush h.log := by
    rw [hlog, lastPush_append, foldl_notePush_quiet hquiet]
  refine ⟨fun r hr => ?_, fun r x' hx' hno => ?_⟩
  · rw [hlast]
    exact hrec.fresh r (Nat.le_trans hnext hr)
  · obtain ⟨x, hx, hno', heq⟩ := hold r x' hx' hno
    rw [hlast, heq]
    exact hrec.recorded r x hx hno'

theorem recorded_of_unrouted_eq (hxy : y.unrouted = x.unrouted) :
    y.recorded = x.recorded ∧ y.cls = x.cls := by
  have hrec : y.unrouted.recorded = x.unrouted.recorded := by rw [hxy]
  have hcls : y.unrouted.cls = x.unrouted.cls := by rw [hxy]
  exact ⟨hrec, hcls⟩

theorem old_of_unrouted
    (hres : ∀ q, (h'.resources q).map Resource.unrouted = (h.resources q).map Resource.unrouted) :
    ∀ r x', h'.resources r = some x' → (∀ o, x'.cls ≠ .observation o) →
      ∃ x, h.resources r = some x ∧ (∀ o, x.cls ≠ .observation o) ∧ x'.recorded = x.recorded := by
  intro r x' hx' hno
  obtain ⟨x, hx, hxx⟩ := exists_of_map_unrouted (hres r) hx'
  obtain ⟨hrec, hcls⟩ := recorded_of_unrouted_eq hxx
  exact ⟨x, hx, fun o ho => hno o (hcls.trans ho), hrec⟩

theorem old_of_setResource {q : ResRef} (hx : h.resources q = some x)
    (hkeep : (∀ o, y.cls ≠ .observation o) →
      (∀ o, x.cls ≠ .observation o) ∧ y.recorded = x.recorded)
    (hres : h'.resources = (h.setResource q y).resources) :
    ∀ r x', h'.resources r = some x' → (∀ o, x'.cls ≠ .observation o) →
      ∃ x, h.resources r = some x ∧ (∀ o, x.cls ≠ .observation o) ∧ x'.recorded = x.recorded := by
  intro r x' hx' hno
  rw [hres] at hx'
  by_cases hq : r = q
  · subst hq
    simp only [Hub.setResource, Function.update_self, Option.some.injEq] at hx'
    subst hx'
    obtain ⟨hno', heq⟩ := hkeep hno
    exact ⟨x, hx, hno', heq⟩
  · simp only [Hub.setResource, Function.update_of_ne hq] at hx'
    exact ⟨x', hx', hno, rfl⟩

theorem notObservation_iff (hcls : ClassOk et x.cls) :
    (∀ o, x.cls ≠ .observation o) ↔ et ≠ .observation := by
  cases hc : x.cls with
  | observation o =>
    rw [hc] at hcls
    cases et <;> first | exact hcls.elim | simp
  | placeholder | ioPoint =>
    rw [hc] at hcls
    cases et <;> first | exact hcls.elim | simp

theorem traced_obs {obsEvs : List ObsEvent} : ∀ e ∈ obsEvs.map (Event.obs r), e.traced = false := by
  intro e he
  obtain ⟨ev, -, rfl⟩ := List.mem_map.mp he
  rfl

theorem traced_obs_concat {obsEvs : List ObsEvent} {last : Event} (hlast : last.traced = false) :
    ∀ e ∈ obsEvs.map (Event.obs r) ++ [last], e.traced = false := by
  intro e he
  rcases List.mem_append.mp he with he | he
  · exact traced_obs e he
  · exact List.mem_singleton.mp he ▸ hlast

/-- An edit that is no push leaves the record of anything but an Observation. -/
theorem Edit.recorded {updating : Bool} {x' : Resource} (hcls : ClassOk et x.cls)
    (hedit : Edit P r updating et x evs x') :
    (∀ e ∈ evs, e.traced = false) ∧ (et ≠ .observation → x'.recorded = x.recorded) ∨
      ∃ ctx t u s, ∃ p : Pushed, (et ≠ .observation → x'.recorded = some (t, s.pushed u)) ∧
        evs = .receiving r et s :: .pushing r ctx x t u s :: p.events.map (.obs r) := by
  have hobs : ∀ {o : Observation} {other : Prop}, x.cls = .observation o → et ≠ .observation →
      other := fun ho het => absurd ho ((notObservation_iff hcls).mpr het _)
  cases hedit with
  | push ctx t u s hs p hctx hp hlocal =>
    exact .inr ⟨ctx, t, u, s, p, fun het => recorded_pushLocal het hlocal, rfl⟩
  | override t s => exact .inl ⟨by simp, fun _ => recorded_accept _ t s⟩
  | unoverride =>
    refine .inl ⟨by simp [Event.traced], fun _ => ?_⟩
    unfold Resource.unoverride
    split
    · rfl
    · split
      · exact recorded_accept _ _ _
      · rfl
  | default t s =>
    refine .inl ⟨by simp, fun _ => ?_⟩
    unfold Resource.withDefault
    dsimp only
    split
    · exact recorded_accept _ t s
    · rfl
  | configure ho => exact .inl ⟨traced_obs_concat rfl, hobs ho⟩
  | observe ho => exact .inl ⟨traced_obs, hobs ho⟩
  | extraction ho => exact .inl ⟨traced_obs_concat rfl, hobs ho⟩
  | restore env content ho =>
    refine .inl ⟨fun e he => ?_, hobs ho⟩
    rcases List.mem_cons.mp he with rfl | he
    · rfl
    · exact traced_obs e he
  | flag => exact .inl ⟨by simp [Event.traced], fun _ => rfl⟩
  | _ => exact .inl ⟨by simp, fun _ => rfl⟩

theorem foldl_notePush_push {ctx : ObsContext} {p : Pushed}
    (last : ResRef → Option (DataType × DataSample)) :
    (.receiving r et s :: .pushing r ctx x t u s :: p.events.map (.obs r)).foldl notePush last =
      Function.update last r (some (t, s.pushed u)) := by
  rw [List.foldl_cons, List.foldl_cons]
  exact foldl_notePush_quiet traced_obs _

theorem PushesRecorded.edited {updating : Bool} {x' : Resource} (hrec : PushesRecorded h)
    (hwf : WellFormed h) (hx : h.resources r = some x) (he : h.entries x.entryRef = some entry)
    (hedit : Edit P r updating entry.type x evs x') (hlog : h'.log = h.log ++ evs)
    (hres : h'.resources = (h.setResource r x').resources) (hnext : h'.nextRes = h.nextRes) :
    PushesRecorded h' := by
  have hcls := hwf.cls r x entry hx he
  have hcls' := hedit.classOk hcls
  rcases hedit.recorded hcls with ⟨hquiet, heq⟩ | ⟨ctx, t, u, s, p, hx', rfl⟩
  · refine hrec.quiet hlog hquiet (Nat.le_of_eq hnext.symm) (old_of_setResource hx ?_ hres)
    intro hno
    have het := (notObservation_iff hcls').mp hno
    exact ⟨(notObservation_iff hcls).mpr het, heq het⟩
  · have hlast : lastPush h'.log = Function.update (lastPush h.log) r (some (t, s.pushed u)) := by
      rw [hlog, lastPush_append, foldl_notePush_push]
    refine ⟨fun q hq => ?_, fun q z hz hno => ?_⟩
    · rw [hnext] at hq
      have hne : q ≠ r := Nat.ne_of_gt (Nat.lt_of_lt_of_le (hwf.res_lt r x hx) hq)
      rw [hlast, Function.update_of_ne hne]
      exact hrec.fresh q hq
    · rw [hres] at hz
      rw [hlast]
      by_cases hq : q = r
      · subst hq
        simp only [Hub.setResource, Function.update_self, Option.some.injEq] at hz
        subst hz
        rw [Function.update_self]
        exact hx' ((notObservation_iff hcls').mp hno)
      · simp only [Hub.setResource, Function.update_of_ne hq] at hz
        rw [Function.update_of_ne hq]
        exact hrec.recorded q z hz hno

/-- What takes the place of another resource takes its record along. -/
theorem PushesRecorded.replaced {e : EntryRef} (hrec : PushesRecorded h) (hwf : WellFormed h)
    (he : h.entries e = some entry) (hre : Replaceable entry.type et) (hy : Created P e et y)
    (hrep : Replaced P h e y et entry h') : PushesRecorded h' := by
  have hnext : h.nextRes ≤ h'.nextRes := hrep.nextRes ▸ Nat.le_succ _
  cases hold : entry.resourcePtr with
  | none =>
    obtain ⟨hres, hlog, -⟩ := hrep.attach hold
    have hlast : lastPush h'.log = lastPush h.log := by
      rw [hlog, lastPush_append]
      rfl
    refine ⟨fun r hr => hlast ▸ hrec.fresh r (Nat.le_trans hnext hr), fun r z hz hno => ?_⟩
    rw [hres] at hz
    rw [hlast]
    by_cases hr : r = h.nextRes
    · subst hr
      simp only [Function.update_self, Option.some.injEq] at hz
      subst hz
      rw [hrec.fresh _ (Nat.le_refl _), Resource.recorded, hy.blank.pushedValue]
      rfl
    · rw [Function.update_of_ne hr] at hz
      exact hrec.recorded r z hz hno
  | some old =>
    obtain ⟨x, evs, hx, hres, hlog, -⟩ := hrep.move old hold
    obtain ⟨x', hx', rfl⟩ := hwf.resourceOf e entry old he hold
    have hlt := hwf.res_lt old x' hx'
    rw [Function.update_of_ne (Nat.ne_of_lt hlt)] at hx
    cases hx.symm.trans hx'
    have hlast : lastPush h'.log =
        Function.update (lastPush h.log) h.nextRes (lastPush h.log old) := by
      rw [hlog, lastPush_append, List.foldl_cons]
      exact foldl_notePush_quiet traced_obs _
    refine ⟨fun r hr => ?_, fun r z hz hno => ?_⟩
    · rw [hrep.nextRes] at hr
      rw [hlast, Function.update_of_ne (Nat.ne_of_gt hr)]
      exact hrec.fresh r (Nat.le_of_succ_le hr)
    · have hmap := hres r
      rw [hz] at hmap
      rw [hlast]
      by_cases hr : r = old
      · subst hr
        rw [Function.update_self] at hmap
        cases hmap
      · rw [Function.update_of_ne hr] at hmap
        by_cases hr' : r = h.nextRes
        · subst hr'
          rw [Function.update_self] at hmap ⊢
          obtain ⟨hval, htype, -⟩ := moveValues_moved (P := P) x y et
          obtain ⟨hrecord, -⟩ := recorded_of_unrouted_eq (Option.some.inj hmap)
          rw [hrecord, ← hrec.recorded old x hx (hre.notObservation (hwf.cls old x entry hx he)),
            Resource.recorded, hval, htype, Resource.recorded]
        · rw [Function.update_of_ne hr'] at hmap ⊢
          obtain ⟨w, hw, hwz⟩ := Option.map_eq_some_iff.mp hmap.symm
          obtain ⟨hrecord, hcls⟩ := recorded_of_unrouted_eq hwz.symm
          rw [hrecord]
          exact hrec.recorded r w hw fun o ho => hno o (hcls.trans ho)

theorem pushesRecorded_micro (hwf : WellFormed h) (hm : Micro P h h') (hrec : PushesRecorded h) :
    PushesRecorded h' := by
  have hsameLog : ∀ {h' : Hub}, h'.log = h.log → h'.log = h.log ++ [] := fun hlog => by simp [hlog]
  have hnone : ∀ e ∈ ([] : List Event), e.traced = false := by simp
  have hself : h'.resources = h.resources → ∀ r x', h'.resources r = some x' →
      (∀ o, x'.cls ≠ .observation o) →
      ∃ x, h.resources r = some x ∧ (∀ o, x.cls ≠ .observation o) ∧ x'.recorded = x.recorded :=
    fun hres => old_of_unrouted fun q => by rw [hres]
  cases hm with
  | ambient hs evs hnote hlog =>
    refine hrec.quiet hlog (fun e he => ?_) (Nat.le_of_eq hs.nextRes.symm) (hself hs.resources)
    cases hnote.note e he <;> rfl
  | startUpdate => exact hrec.quiet (hsameLog rfl) hnone (Nat.le_refl _) (hself rfl)
  | endUpdate =>
    have hlog : (h.emit .endingUpdate).log = h.log ++ [.endingUpdate] := rfl
    exact hrec.quiet hlog (by simp [Event.traced]) (Nat.le_refl _) (hself rfl)
  | edit hx he hedit hreads hs hlog =>
    exact hrec.edited hwf hx he hedit hlog hs.resources hs.nextRes
  | @addHandler r x hx t =>
    refine hrec.quiet (hsameLog rfl) hnone (Nat.le_refl _) (old_of_setResource (y :=
      { x with pushHandlerList := x.pushHandlerList ++ [h.nextHandler] }) hx ?_ rfl)
    exact fun hno => ⟨hno, rfl⟩
  | @removeHandler p handler x hp hx =>
    refine hrec.quiet (hsameLog rfl) hnone (Nat.le_refl _) (old_of_setResource (y :=
      { x with pushHandlerList := x.pushHandlerList.erase p }) hx ?_ rfl)
    exact fun hno => ⟨hno, rfl⟩
  | unlink dest hu =>
    have hs := (routesOnly_unlinkSource h dest).result hu
    exact hrec.quiet (hsameLog hs.log) hnone (Nat.le_of_eq hs.nextRes.symm)
      (old_of_unrouted hs.resources)
  | link dest src fuel hd hnone hloop hl =>
    have hs := (routesOnly_linkSource _ dest src).result hl
    have hlog : h'.log = h.log ++ [.routing dest src] := hs.log
    exact hrec.quiet hlog (by simp [Event.traced]) (Nat.le_of_eq hs.nextRes.symm)
      (old_of_unrouted hs.resources)
  | addChild parent name ha =>
    obtain ⟨_, _, _, hh⟩ := (addChild_frame h parent name).result ha
    dsimp only at hh
    subst hh
    exact hrec.quiet (hsameLog rfl) hnone (Nat.le_refl _) (hself rfl)
  | replace he hre hy hr => exact hrec.replaced hwf he hre hy (replaceResource_replaced hwf he hr).2
  | @remove _ _ q x entry evs hx he hsrc hdest hs hlog hfreed hrel =>
    have hrel' := (releaseEntry_frame _ _ _).result hrel
    refine hrec.quiet (hrel'.log.trans hlog) traced_obs
      (Nat.le_of_eq (hrel'.nextRes.trans hs.nextRes).symm) fun r x' hx' hno => ?_
    rw [hrel'.resources, hs.resources] at hx'
    have hr : r ≠ q := by
      rintro rfl
      simp [removed, freed] at hx'
    simp only [removed, freed, Function.update_of_ne hr] at hx'
    exact ⟨x', hx', hno, rfl⟩

theorem reachable_pushesRecorded (hr : Reachable P h) : PushesRecorded h := by
  refine reachable_induction (fun _ => True) (fun env files => ⟨fun _ _ => rfl, ?_⟩)
    (fun _ _ hwf hm _ hrec => pushesRecorded_micro hwf hm hrec) hr fun _ _ => trivial
  intro r x hx
  cases hx

/-- The last value pushed to a resource stands: whatever overrides and defaults come and go, where
no override is set it is the current value. -/
theorem last_push_stands (hr : Reachable P h) (hok : ∀ e ∈ h.log, pushesTaken e = true)
    (hx : h.resources r = some x) (he : h.entries x.entryRef = some entry) :
    (entry.type ≠ .observation → x.recorded = lastPush h.log r) ∧
    (x.overrideValue = none → ∀ t s, x.recorded = some (t, s) →
      x.currentValue = some s ∧ x.currentType = t) := by
  have hcls := (reachable_wellFormed hr).cls r x entry hx he
  have hshows := reachable_each push_invariant hr hok r x entry hx he
  refine ⟨fun het => ?_, fun hnone t s hs => ?_⟩
  · exact (reachable_pushesRecorded hr).recorded r x hx ((notObservation_iff hcls).mpr het)
  · obtain ⟨s', hval, heq⟩ := Option.map_eq_some_iff.mp hs
    cases heq
    exact hshows.shown hnone s hval

/-- An Input takes the place of a Placeholder with a value, and is overridden while it gets another
one. -/
def overriddenPushesRun : List Op :=
  [.adminSetDefault (ascii "/app/a/x") (.numeric (double 5)),
   .adminPush (ascii "/app/a/x") (double 2) (.numeric (double 1)),
   .ioCreateInput 0 (ascii "x") .numeric [],
   .adminSetOverride (ascii "/app/a/x") (.numeric (double 7)),
   .ioPush 0 (ascii "x") (double 3) (.numeric (double 4)),
   .adminSetDefault (ascii "/app/a/x") (.numeric (double 9)),
   .adminRemoveOverride (ascii "/app/a/x")]

theorem last_push_stands_overriddenPushesRun : ∃ h r x entry s, Reachable smallPlatform h ∧
    h.resources r = some x ∧ h.entries x.entryRef = some entry ∧ entry.type = .input ∧
    lastPush h.log r = some (.numeric, s) ∧ s.timestamp = double 3 ∧
    s.value = .numeric (double 4) ∧ x.currentValue = some s ∧ x.currentType = .numeric := by
  have hrun : smallRunEnds overriddenPushesRun (fun h =>
      h.log.all pushesTaken && (h.resources 1).any fun x => x.overrideValue.isNone &&
        (h.entries x.entryRef).any (fun entry => decide (entry.type = .input)) &&
        (lastPush h.log 1).any fun last => decide (last.1 = .numeric ∧
          last.2.timestamp = double 3 ∧ last.2.value = .numeric (double 4))) = true := by
    decide +kernel
  obtain ⟨h, hr, htest⟩ := exists_of_smallRunEnds hrun
  simp only [Bool.and_eq_true, List.all_eq_true, Option.any_eq_true, Option.isNone_iff_eq_none,
    decide_eq_true_eq] at htest
  obtain ⟨hok, x, hx, ⟨hnone, entry, he, htype⟩, ⟨t, s⟩, hlast, rfl, hts, hvalue⟩ := htest
  obtain ⟨hrecorded, hshown⟩ := last_push_stands hr hok hx he
  rw [hlast] at hrecorded
  obtain ⟨hcur, hcurType⟩ := hshown hnone _ s (hrecorded (by rw [htype]; simp))
  exact ⟨h, 1, x, entry, s, hr, hx, he, htype, hlast, hts, hvalue, hcur, hcurType⟩

end MangOH.DataHub
