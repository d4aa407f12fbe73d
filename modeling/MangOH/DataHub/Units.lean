import MangOH.DataHub.Reachability
import MangOH.DataHub.Scenario

/-! No Input or Output takes on a value that was pushed to it with other units than its own. -/
namespace MangOH.DataHub

variable {P : Platform} {h : Hub} {et : EntryType} {x y : Resource} {units u : CString}

/-- The sample was delivered without units, or with these, or there are none to compare with. -/
def unitsAgree (units : CString) (s : DataSample) : Bool :=
  s.via = [] || units = [] || s.via = units

/-- No Input or Output with units has a current value that a push with other units delivered. -/
def UnitsLaw (h : Hub) : Prop :=
  ∀ r x entry, h.resources r = some x → h.entries x.entryRef = some entry →
    entry.type.isIo = true → x.units ≠ [] → ∀ s, x.currentValue = some s → s.via ≠ [] →
    s.via = x.units

/-- No override is removed from an Input or Output when the last value pushed to it came with other
units than its own, and no Input or Output takes over such a value from what it replaces. -/
def keepsUnits : Event → Bool
  | .unoverriding et x =>
    !et.isIo || x.overrideValue.isNone || !x.acceptable x.pushedType ||
      x.pushedValue.all (unitsAgree x.units)
  | .replacing _ _ before et y =>
    !et.isIo || before.currentType ≠ y.currentType || before.currentValue.all (unitsAgree y.units)
  | _ => true

/-- The law for one resource. -/
def UnitsOk (et : EntryType) (x : Resource) : Prop :=
  et.isIo = true → ∀ s, x.currentValue = some s → unitsAgree x.units s = true

theorem unitsAgree_of_via_nil {s : DataSample} (hs : s.via = []) : unitsAgree units s = true := by
  simp [unitsAgree, hs]

theorem unitsAgree_of_not_refused {s : DataSample} (hs : s.via = u) (hu : ¬ x.refusesUnits u) :
    unitsAgree x.units s = true := by
  unfold Resource.refusesUnits at hu
  unfold unitsAgree
  rw [hs]
  by_cases h₁ : u = []
  · simp [h₁]
  · by_cases h₂ : x.units = []
    · simp [h₂]
    · have : u = x.units := by
        by_contra h₃
        exact hu ⟨h₁, h₂, h₃⟩
      simp [this]

theorem UnitsOk.congr (hx : UnitsOk et x) (hcur : y.currentValue = x.currentValue)
    (hunits : y.units = x.units) : UnitsOk et y := by
  intro hio s hs
  rw [hunits]
  exact hx hio s (hcur ▸ hs)

theorem unitsOk_accept {t : DataType} {s : DataSample} (hx : UnitsOk et x)
    (hs : et.isIo = true → unitsAgree x.units s = true) : UnitsOk et (x.accept t s) := by
  unfold Resource.accept
  split
  · rintro hio _ ⟨⟩
    exact hs hio
  · exact hx

theorem PushOutcome.unitsOk {p : Pushed} (hp : PushOutcome P et x u p) (ht : Typed x)
    (hx : UnitsOk et x) : UnitsOk et p.accepted := by
  cases hp with
  | filtered => exact hx.congr rfl rfl
  | suspended => exact hx.congr rfl rfl
  | @overridden cls _ hc t s hs hv hsusp ho value hvalue =>
    have hrecord : UnitsOk et (x.record cls t s) := hx.congr rfl rfl
    exact unitsOk_accept hrecord fun _ => unitsAgree_of_via_nil (ht.override value hvalue).2
  | mismatched => exact hx.congr rfl rfl
  | coerced t s hs hv hsusp ho hio hu fixed mandatory hfixed coerced hct hcv =>
    have hrecord : UnitsOk et (x.record x.cls t s) := hx.congr rfl rfl
    exact unitsOk_accept hrecord fun _ => unitsAgree_of_not_refused (x := x) hcv hu
  | taken hc t s hs hv hsusp ho hio =>
    intro hio'
    rw [hio] at hio'
    cases hio'

theorem unitsOk_unoverride (ht : Typed x) (hx : UnitsOk et x)
    (hkeep : keepsUnits (.unoverriding et x) = true) : UnitsOk et x.unoverride := by
  have hdrop : UnitsOk et { x with overrideValue := none } := hx.congr rfl rfl
  unfold Resource.unoverride
  split
  · exact hx
  · next hsome =>
    split
    · next t s hs =>
      refine unitsOk_accept hdrop fun hio => ?_
      rcases fallback_cases hs with ⟨hpushed, hacc⟩ | hdefault
      · simpa [keepsUnits, hio, hacc, hpushed, hsome] using hkeep
      · exact unitsAgree_of_via_nil (ht.default s hdefault).2
    · exact hdrop

theorem Edit.unitsOk {r : ResRef} {updating : Bool} {evs : List Event} {x' : Resource}
    (hedit : Edit P r updating et x evs x') (ht : Typed x)
    (hkeep : ∀ e ∈ evs, keepsUnits e = true) (hx : UnitsOk et x) : UnitsOk et x' := by
  cases hedit with
  | push ctx t u s hs p hctx hp => exact hp.unitsOk ht hx
  | override t s hs hv =>
    have hx' : UnitsOk et { x with overrideValue := some s, overrideType := t } := hx.congr rfl rfl
    exact unitsOk_accept hx' fun _ => unitsAgree_of_via_nil hv
  | unoverride => exact unitsOk_unoverride ht hx (hkeep _ (List.mem_singleton.mpr rfl))
  | default t s hs hv =>
    have hx' : UnitsOk et { x with defaultValue := some s, defaultType := t } := hx.congr rfl rfl
    unfold Resource.withDefault
    dsimp only
    split
    · exact unitsOk_accept hx' fun _ => unitsAgree_of_via_nil hv
    · exact hx'
  | clearUnits hio =>
    intro hio'
    rw [hio] at hio'
    cases hio'
  | _ => exact hx

theorem unitsOk_moveValues {old new : ResRef} {e : EntryRef} (hy : Created P e et y)
    (hkeep : keepsUnits (.replacing old new x et y) = true) : UnitsOk et (moveValues P x y et) := by
  intro hio s hs
  rw [units_moveValues_of_io x y hio]
  rcases moveValues_current (P := P) x y et with ⟨_, hv, _⟩ | ⟨htype, hv, _⟩
  · rw [hv, hy.blank.currentValue] at hs
    cases hs
  · rw [hv] at hs
    simpa [keepsUnits, hio, htype hio, hs] using hkeep

theorem units_invariant : ResourceInvariant P (keepsUnits · = true) UnitsOk where
  unrouted _ _ := Iff.rfl
  edit _ _ _ _ _ _ _ ht hedit hkeep hx := hedit.unitsOk ht hkeep hx
  created _ _ _ hy := by
    intro _ s hs
    rw [hy.blank.currentValue] at hs
    cases hs
  handlers _ _ _ hx := hx
  moved _ _ _ _ _ _ _ _ _ _ hy hkeep _ := unitsOk_moveValues hy hkeep

/-- The units law holds in every state that is reached without bringing back a value that was
pushed with other units. -/
theorem units_law (hr : Reachable P h) (hok : ∀ e ∈ h.log, keepsUnits e = true) : UnitsLaw h := by
  intro r x entry hx hentry hio hunits s hs hvia
  have hagree := reachable_each units_invariant hr hok r x entry hx hentry hio s hs
  simpa [unitsAgree, hunits, hvia] using hagree

/-- An override is removed after a push in the Output's own units. -/
def unitsRun : List Op :=
  [.ioCreateInput 0 (ascii "in") .numeric (ascii "degC"),
   .ioCreateOutput 0 (ascii "out") .numeric (ascii "degC"),
   .adminSetSource (ascii "/app/a/out") (ascii "/app/a/in"),
   .adminSetOverride (ascii "/app/a/out") (.numeric (double 7)),
   .ioPush 0 (ascii "in") (double 3) (.numeric (double 20)),
   .adminRemoveOverride (ascii "/app/a/out")]

theorem units_law_unitsRun : ∃ h, Reachable smallPlatform h ∧
    ((h.resources 1).any fun x => x.currentValue.any (·.via = ascii "degC")) = true ∧
    UnitsLaw h := by
  have hrun : smallRunEnds unitsRun (fun h =>
      (h.resources 1).any (fun x => x.currentValue.any (·.via = ascii "degC")) &&
        h.log.all keepsUnits) = true := by
    decide +kernel
  obtain ⟨h, hr, hp⟩ := exists_of_smallRunEnds hrun
  rw [Bool.and_eq_true] at hp
  exact ⟨h, hr, hp.1, units_law hr (List.all_eq_true.mp hp.2)⟩

/-- A push in degrees Fahrenheit to an Output in degrees Celsius comes to light when the override
that hid it is removed. -/
def refusedUnitsRun : List Op :=
  [.ioCreateInput 0 (ascii "in") .numeric (ascii "degF"),
   .ioCreateOutput 0 (ascii "out") .numeric (ascii "degC"),
   .adminSetSource (ascii "/app/a/out") (ascii "/app/a/in"),
   .adminSetOverride (ascii "/app/a/out") (.numeric (double 7)),
   .ioPush 0 (ascii "in") (double 3) (.numeric (double 70)),
   .adminRemoveOverride (ascii "/app/a/out")]

theorem units_law_fails : ∃ h, Reachable smallPlatform h ∧ ¬ UnitsLaw h := by
  have hrun : smallRunEnds refusedUnitsRun (fun h =>
      ((h.resources 1).any fun x => x.units = ascii "degC" &&
        x.currentValue.any (·.via = ascii "degF") &&
        (h.entries x.entryRef).any (·.type.isIo))) = true := by
    decide +kernel
  obtain ⟨h, hr, hp⟩ := exists_of_smallRunEnds hrun
  refine ⟨h, hr, fun hlaw => ?_⟩
  obtain ⟨x, hx, hp⟩ := (Option.any_eq_true _ _).mp hp
  simp only [Bool.and_eq_true, Option.any_eq_true, decide_eq_true_eq] at hp
  obtain ⟨⟨hunits, s, hs, hvia⟩, entry, hentry, hio⟩ := hp
  have heq := hlaw 1 x entry hx hentry hio (by rw [hunits]; decide) s hs (by rw [hvia]; decide)
  rw [hvia, hunits] at heq
  revert heq
  decide

end MangOH.DataHub
