import MangOH.DataHub.HandlerDelivery

/-! Inputs take values only from their app or the administrator, if nothing is delivered to them
over a route. -/
namespace MangOH.DataHub

open Outcome

variable {P : Platform} {h h' : Hub} {et : EntryType} {x y : Resource} {s : DataSample}
  {t : DataType} {u : CString} {r : ResRef}

/-- The sample has not been delivered by another resource. -/
def DataSample.isDirect (s : DataSample) : Bool := decide (s.hops ≤ 1)

/-- What Inputs hold, and what is passed on to their destinations and handlers, comes from their app
or the administrator. -/
structure InputsDirect (h : Hub) : Prop where
  pushed : ∀ r x entry s, h.resources r = some x → h.entries x.entryRef = some entry →
    entry.type = .input → x.pushedValue = some s → s.isDirect = true
  current : ∀ r x entry s, h.resources r = some x → h.entries x.entryRef = some entry →
    entry.type = .input → x.currentValue = some s → s.isDirect = true
  accepted : ∀ r list s, .accepting r .input list s ∈ h.log → s.isDirect = true

/-- No resource pushes to an Input, and no Input takes over a value that was delivered over a route
from the Placeholder that it replaces. -/
def sparesInputs : Event → Bool
  | .receiving _ .input s => decide (s.hops = 0)
  | .replacing _ _ before .input y => before.pushedValue.all DataSample.isDirect &&
      (decide (before.currentType ≠ y.currentType) || before.currentValue.all DataSample.isDirect)
  | _ => true

/-- The law for one resource. Defaults and overrides are set by the administrator. -/
structure DirectOk (et : EntryType) (x : Resource) : Prop where
  override : ∀ s, x.overrideValue = some s → s.isDirect = true
  default : ∀ s, x.defaultValue = some s → s.isDirect = true
  pushed : et = .input → ∀ s, x.pushedValue = some s → s.isDirect = true
  current : et = .input → ∀ s, x.currentValue = some s → s.isDirect = true

theorem isDirect_of_hops (hs : s.hops = 1) : s.isDirect = true := by
  simp [DataSample.isDirect, hs]

theorem DirectOk.congr (hx : DirectOk et x) (hov : y.overrideValue = x.overrideValue)
    (hdef : y.defaultValue = x.defaultValue)
    (hpushed : y.pushedValue = x.pushedValue ∨ y.pushedValue = none)
    (hcur : y.currentValue = x.currentValue) : DirectOk et y := by
  refine ⟨hov ▸ hx.override, hdef ▸ hx.default, fun het s hs => ?_, hcur ▸ hx.current⟩
  rcases hpushed with heq | hnone
  · exact hx.pushed het s (heq ▸ hs)
  · rw [hnone] at hs
    cases hs

theorem DirectOk.accept (hx : DirectOk et x) (hs : et = .input → s.isDirect = true) :
    DirectOk et (x.accept t s) := by
  unfold Resource.accept
  split
  · refine ⟨hx.override, hx.default, hx.pushed, ?_⟩
    rintro het _ ⟨⟩
    exact hs het
  · exact hx

/-! ### Pushes -/

theorem hops_coerced {env : Environment} {fixed : DataType} {s' : DataSample}
    (hc : doTypeCoercion P env fixed t s = .ok s') : s'.hops = s.hops := by
  unfold doTypeCoercion at hc
  split at hc
  · cases hc
    rfl
  · obtain ⟨toSample, _, hc⟩ := bind_eq_ok.mp hc
    cases hc
    rfl

theorem isDirect_applyOverride {a : DataType × CString × DataSample}
    (ha : applyOverride et x t u s = .ok a) (hs : s.isDirect = true)
    (hov : ∀ s, x.overrideValue = some s → s.isDirect = true) : a.2.2.isDirect = true := by
  unfold applyOverride at ha
  obtain ⟨overridden, -, ha⟩ := bind_eq_ok.mp ha
  split at ha
  · next value hvalue =>
    obtain ⟨copied, hcopy, ha⟩ := bind_eq_ok.mp ha
    cases ha
    unfold dataSampleCopy at hcopy
    split at hcopy
    · cases hcopy
      have hdirect := hov value hvalue
      exact hdirect
    · cases hcopy
  · cases ha
    exact hs

/-- Units and coercion change neither the pushed value nor where a sample comes from. -/
theorem conform_input {env : Environment} {c : Resource × Option (DataType × DataSample)}
    (hc : conform P env .input x t u s = .ok c) :
    c.1.pushedValue = x.pushedValue ∧ ∀ t' s', c.2 = some (t', s') → s'.hops = s.hops := by
  unfold conform at hc
  dsimp only at hc
  split at hc
  · cases hc
    exact ⟨rfl, fun t' s' heq => by cases heq⟩
  · obtain ⟨fixed, _, hc⟩ := bind_eq_ok.mp hc
    obtain ⟨coerced, hcoerced, hc⟩ := bind_eq_ok.mp hc
    cases hc
    refine ⟨rfl, fun t' s' heq => ?_⟩
    cases heq
    exact hops_coerced hcoerced

/-- A sample that is pushed to an Input directly leaves only direct ones there. -/
theorem resPushLocal_direct {ctx : ObsContext} {p : Pushed}
    (hp : resPushLocal P ctx .input x t u s = .ok p) (hs : s.hops = 0)
    (hov : ∀ s, x.overrideValue = some s → s.isDirect = true) :
    (∀ s, p.res.pushedValue = some s → s.isDirect = true) ∧
      ∀ t s, p.sample = some (t, s) → s.isDirect = true := by
  let pushed : DataSample := { s with via := u, hops := s.hops + 1 }
  have hpushed : pushed.isDirect = true := isDirect_of_hops (by show s.hops + 1 = 1; rw [hs])
  let recorded : Resource := { x with pushedValue := some pushed, pushedType := t }
  have hrecorded : ∀ s, recorded.pushedValue = some s → s.isDirect = true := by
    rintro _ ⟨⟩
    exact hpushed
  have heq : resPushLocal P ctx .input x t u s =
      if recorded.isConfigChanging then pure ⟨recorded, [], none⟩
      else applyOverride .input recorded t u pushed >>= fun a =>
        conform P ctx.env .input recorded a.1 a.2.1 a.2.2 >>= fun c => pure ⟨c.1, [], c.2⟩ := rfl
  rw [heq] at hp
  split at hp
  · cases hp
    exact ⟨hrecorded, fun t' s' heq => by cases heq⟩
  · obtain ⟨a, ha, hp⟩ := bind_eq_ok.mp hp
    obtain ⟨c, hc, hp⟩ := bind_eq_ok.mp hp
    cases hp
    obtain ⟨hsame, hhops⟩ := conform_input hc
    refine ⟨hsame ▸ hrecorded, fun t' s' heq => ?_⟩
    have hdirect := isDirect_applyOverride ha hpushed hov
    unfold DataSample.isDirect at hdirect ⊢
    rw [hhops t' s' heq]
    exact hdirect

theorem directOk_push {ctx : ObsContext} {p : Pushed} (hp : PushOutcome P et x u p)
    (hlocal : resPushLocal P ctx et x t u s = .ok p)
    (hok : et = .input → s.hops = 0) (hx : DirectOk et x) : DirectOk et p.accepted := by
  obtain ⟨hcur, hov, hdef⟩ : p.res.currentValue = x.currentValue ∧
      p.res.overrideValue = x.overrideValue ∧ p.res.defaultValue = x.defaultValue := by
    cases hp <;> exact ⟨rfl, rfl, rfl⟩
  have hdirect : et = .input → (∀ s, p.res.pushedValue = some s → s.isDirect = true) ∧
      ∀ t s, p.sample = some (t, s) → s.isDirect = true := by
    rintro rfl
    exact resPushLocal_direct hlocal (hok rfl) hx.override
  have hres : DirectOk et p.res :=
    ⟨hov ▸ hx.override, hdef ▸ hx.default, fun het => (hdirect het).1, hcur ▸ hx.current⟩
  unfold Pushed.accepted
  split
  · exact hres
  · next t' s' hsample => exact hres.accept fun het => (hdirect het).2 t' s' hsample

theorem Edit.directOk {updating : Bool} {evs : List Event} (hedit : Edit P r updating et x evs y)
    (hkeep : ∀ e ∈ evs, sparesInputs e = true) (hx : DirectOk et x) : DirectOk et y := by
  cases hedit with
  | push ctx t u s hs p hctx hp hlocal =>
    refine directOk_push hp hlocal ?_ hx
    rintro rfl
    exact of_decide_eq_true (hkeep _ List.mem_cons_self)
  | override t s hs hv hh =>
    have hx' : DirectOk et { x with overrideValue := some s, overrideType := t } := by
      refine ⟨?_, hx.default, hx.pushed, hx.current⟩
      rintro _ ⟨⟩
      exact isDirect_of_hops hh
    exact hx'.accept fun _ => isDirect_of_hops hh
  | unoverride =>
    have hdrop : DirectOk et { x with overrideValue := none } :=
      ⟨by rintro _ ⟨⟩, hx.default, hx.pushed, hx.current⟩
    unfold Resource.unoverride
    split
    · exact hx
    · split
      · next t s hs =>
        refine hdrop.accept fun het => ?_
        rcases fallback_cases hs with ⟨hpushed, _⟩ | hdefault
        · exact hx.pushed het s hpushed
        · exact hx.default s hdefault
      · exact hdrop
  | default t s hs hv hh =>
    have hx' : DirectOk et { x with defaultValue := some s, defaultType := t } := by
      refine ⟨hx.override, ?_, hx.pushed, hx.current⟩
      rintro _ ⟨⟩
      exact isDirect_of_hops hh
    unfold Resource.withDefault
    dsimp only
    split
    · exact hx'.accept fun _ => isDirect_of_hops hh
    · exact hx'
  | undefault => exact ⟨hx.override, by rintro _ ⟨⟩, hx.pushed, hx.current⟩
  | configure ho hs setting hset pushedValue hp =>
    exact hx.congr rfl rfl (hp.imp_right And.right) rfl
  | _ => exact hx.congr rfl rfl (.inl rfl) rfl

/-! ### Runs -/

theorem directOk_created {e : EntryRef} (hy : Created P e et y) : DirectOk et y := by
  have hb := hy.blank
  refine ⟨fun s hs => ?_, fun s hs => ?_, fun _ s hs => ?_, fun _ s hs => ?_⟩
  · rw [hb.overrideValue] at hs
    cases hs
  · rw [hb.defaultValue] at hs
    cases hs
  · rw [hb.pushedValue] at hs
    cases hs
  · rw [hb.currentValue] at hs
    cases hs

theorem directOk_moveValues {old new : ResRef} {e : EntryRef} {et' : EntryType}
    (hy : Created P e et' y) (hkeep : sparesInputs (.replacing old new x et' y) = true)
    (hx : DirectOk et x) : DirectOk et' (moveValues P x y et') := by
  obtain ⟨hpushed, _, hov, _, hdef, _⟩ := moveValues_moved (P := P) x y et'
  refine ⟨hov ▸ hx.override, hdef ▸ hx.default, fun het s hs => ?_, fun het s hs => ?_⟩
  · subst het
    rw [hpushed] at hs
    simp only [sparesInputs, Bool.and_eq_true, hs] at hkeep
    simpa using hkeep.1
  · subst het
    rcases moveValues_current (P := P) x y .input with ⟨_, hv, _⟩ | ⟨htype, hv, _⟩
    · rw [hv, hy.blank.currentValue] at hs
      cases hs
    · rw [hv] at hs
      simp only [sparesInputs, Bool.and_eq_true, hs] at hkeep
      simpa [htype rfl] using hkeep.2

theorem direct_invariant : ResourceInvariant P (sparesInputs · = true) DirectOk where
  unrouted _ _ := ⟨fun hx => hx.congr rfl rfl (.inl rfl) rfl,
    fun hx => hx.congr rfl rfl (.inl rfl) rfl⟩
  edit _ _ _ _ _ _ _ _ hedit hkeep hx := hedit.directOk hkeep hx
  created _ _ _ hy := directOk_created hy
  handlers _ _ _ hx := hx.congr rfl rfl (.inl rfl) rfl
  moved _ _ _ _ _ _ _ _ _ _ hy hkeep hx := directOk_moveValues hy hkeep hx

theorem reachable_accepted_direct (hr : Reachable P h)
    (hok : ∀ e ∈ h.log, sparesInputs e = true) :
    ∀ r list s, .accepting r .input list s ∈ h.log → s.isDirect = true := by
  refine (reachable_induction (sparesInputs · = true)
    (Q := fun h => Each DirectOk h ∧
      ∀ r list s, .accepting r .input list s ∈ h.log → s.isDirect = true) ?_ ?_ hr hok).2
  · refine fun env files => ⟨?_, by simp [boot]⟩
    intro r x entry hx
    cases hx
  · rintro a b hwf hm hevs ⟨heach, haccepted⟩
    refine ⟨each_micro direct_invariant hwf heach hm hevs, fun r list s hmem => ?_⟩
    obtain ⟨evs, hlog, hnew⟩ := accepting_micro hwf hm
    rw [hlog] at hmem
    rcases List.mem_append.mp hmem with hmem | hmem
    · exact haccepted r list s hmem
    · obtain ⟨x, entry, hx, hentry, het, _, hs⟩ := hnew r .input list s hmem
      exact (heach r x entry hx hentry).current het.symm s hs

/-- Inputs take only direct values in every state that is reached without a push to an Input by
another resource. -/
theorem inputs_direct (hr : Reachable P h) (hok : ∀ e ∈ h.log, sparesInputs e = true) :
    InputsDirect h := by
  have heach := reachable_each direct_invariant hr hok
  refine ⟨fun r x entry s hx hentry het hs => ?_, fun r x entry s hx hentry het hs => ?_,
    reachable_accepted_direct hr hok⟩
  · exact (heach r x entry hx hentry).pushed het s hs
  · exact (heach r x entry hx hentry).current het s hs

/-- An Input with a source that never has a value. -/
def quietSourceRun : List Op :=
  [.ioCreateInput 0 (ascii "x") .numeric [],
   .adminSetSource (ascii "/app/a/x") (ascii "/obs/o"),
   .ioPush 0 (ascii "x") (double 3) (.numeric (double 20))]

theorem inputs_direct_quietSourceRun : ∃ h, Reachable smallPlatform h ∧
    ((h.resources 0).any fun x => x.srcPtr.isSome && x.pushedValue.isSome) = true ∧
    InputsDirect h := by
  have hrun : smallRunEnds quietSourceRun (fun h =>
      ((h.resources 0).any fun x => x.srcPtr.isSome && x.pushedValue.isSome) &&
        h.log.all sparesInputs) = true := by
    decide +kernel
  obtain ⟨h, hr, hp⟩ := exists_of_smallRunEnds hrun
  rw [Bool.and_eq_true] at hp
  exact ⟨h, hr, hp.1, inputs_direct hr (List.all_eq_true.mp hp.2)⟩

/-- An Input takes on what is pushed to its source. -/
def routedInputRun : List Op :=
  [.ioCreateInput 0 (ascii "x") .numeric [],
   .adminSetSource (ascii "/app/a/x") (ascii "/obs/o"),
   .adminPush (ascii "/obs/o") (double 3) (.numeric (double 20))]

theorem inputs_direct_fails : ∃ h, Reachable smallPlatform h ∧ ¬ InputsDirect h := by
  have hrun : smallRunEnds routedInputRun (fun h =>
      (h.resources 0).any fun x => x.currentValue.any (!DataSample.isDirect ·) &&
        (h.entries x.entryRef).any fun entry => entry.type = .input) = true := by
    decide +kernel
  obtain ⟨h, hr, hp⟩ := exists_of_smallRunEnds hrun
  refine ⟨h, hr, fun hlaw => ?_⟩
  obtain ⟨x, hx, hp⟩ := (Option.any_eq_true _ _).mp hp
  simp only [Bool.and_eq_true, Option.any_eq_true, decide_eq_true_eq] at hp
  obtain ⟨⟨s, hs, hbad⟩, entry, hentry, het⟩ := hp
  rw [hlaw.current 0 x entry s hx hentry het hs] at hbad
  cases hbad

end MangOH.DataHub
