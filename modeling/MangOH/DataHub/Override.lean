import MangOH.DataHub.Reachability
import MangOH.DataHub.Scenario

/-! The override that is in effect is the current value. -/
namespace MangOH.DataHub

variable {P : Platform} {h : Hub} {et : EntryType} {x y : Resource} {e : Event}

/-- Whenever `res_IsOverridden` says so, the current value is the override's. -/
def OverrideLaw (h : Hub) : Prop :=
  ∀ r x entry, h.resources r = some x → h.entries x.entryRef = some entry →
    resIsOverridden entry.type x = .ok true →
    ∃ value override, x.currentValue = some value ∧ x.overrideValue = some override ∧
      x.currentType = x.overrideType ∧ value.value = override.value

/-- No resource is replaced while it has an override that cannot be in effect: an Input or Output
with an override of another data type than its own. -/
def keepsOverride : Event → Bool
  | .replacing _ _ before _ _ =>
    before.overrideValue.isNone || before.acceptable before.overrideType
  | _ => true

/-- The law for one resource. -/
def Resource.OverrideOk (x : Resource) : Prop :=
  x.overridden = true → ∃ value override, x.currentValue = some value ∧
    x.overrideValue = some override ∧ x.currentType = x.overrideType ∧
    value.value = override.value

theorem overrideOk_of_not_overridden (hx : x.overridden = false) : x.OverrideOk := by
  intro ho
  rw [hx] at ho
  cases ho

/-- Changes elsewhere in the resource do not matter. -/
theorem Resource.OverrideOk.congr (hx : x.OverrideOk) (ho : y.overridden = x.overridden)
    (hcur : y.currentValue = x.currentValue) (htype : y.currentType = x.currentType)
    (hov : y.overrideValue = x.overrideValue) (hovt : y.overrideType = x.overrideType) :
    y.OverrideOk := by
  intro hy
  rw [hcur, htype, hov, hovt]
  exact hx (ho ▸ hy)

theorem overridden_accept (x : Resource) (t : DataType) (s : DataSample) :
    (x.accept t s).overridden = x.overridden := by
  unfold Resource.accept
  split <;> rfl

theorem overridden_class {cls : ResourceClass} {evs : List ObsEvent}
    (hrun : ClassRun P x.cls evs cls) : Resource.overridden { x with cls } = x.overridden := by
  unfold Resource.overridden
  rw [hrun.acceptable]

/-- A value accepted while no override is in effect breaks nothing. -/
theorem overrideOk_accept (hx : x.overridden = false) (t : DataType) (s : DataSample) :
    (x.accept t s).OverrideOk :=
  overrideOk_of_not_overridden ((overridden_accept x t s).trans hx)

/-- The override itself is accepted if it can be. -/
theorem overrideOk_accept_override {s override : DataSample}
    (hov : x.overrideValue = some override) (hs : s.value = override.value) :
    (x.accept x.overrideType s).OverrideOk := by
  unfold Resource.accept
  split
  · exact fun _ => ⟨s, override, rfl, hov, rfl, hs⟩
  · next hacc =>
    apply overrideOk_of_not_overridden
    simp [Resource.overridden, hacc]

theorem PushOutcome.overrideOk {u : CString} {p : Pushed} (hp : PushOutcome P et x u p)
    (hx : x.OverrideOk) : p.accepted.OverrideOk := by
  cases hp with
  | filtered hc => exact hx.congr (overridden_class hc) rfl rfl rfl rfl
  | suspended hc t s => exact hx.congr (overridden_record hc t s) rfl rfl rfl rfl
  | overridden hc t s hs hv hsusp ho value hvalue =>
    exact overrideOk_accept_override (x := x.record _ t s) hvalue rfl
  | mismatched t s => exact hx.congr (overridden_record (P := P) (.refl _) t s) rfl rfl rfl rfl
  | coerced t s hs hv hsusp ho =>
    exact overrideOk_accept ((overridden_record (P := P) (.refl _) t s).trans ho) _ _
  | taken hc t s hs hv hsusp ho hio units =>
    exact overrideOk_accept (x := { x.record _ t s with units })
      ((overridden_record hc t s).trans ho) t s

theorem overridden_of_operatesOnDefault (hx : x.operatesOnDefault = true) :
    x.overridden = false := by
  unfold Resource.operatesOnDefault at hx
  simp only [Bool.and_eq_true, Bool.not_eq_eq_eq_not, Bool.not_true] at hx
  exact hx.1

theorem Edit.overrideOk {r : ResRef} {updating : Bool} {evs : List Event} {x' : Resource}
    (hedit : Edit P r updating et x evs x') (hx : x.OverrideOk) : x'.OverrideOk := by
  have hobs : ∀ o : Observation, x.cls = .observation o → ∀ (o' : Observation) (y : Resource),
      y.cls = .observation o' → y.currentValue = x.currentValue → y.currentType = x.currentType →
      y.overrideValue = x.overrideValue → y.overrideType = x.overrideType → y.OverrideOk := by
    intro o ho o' y hy hcur htype hov hovt
    refine hx.congr ?_ hcur htype hov hovt
    simp [Resource.overridden, Resource.acceptable, ho, hy, hov]
  cases hedit with
  | push ctx t u s hs p hctx hp => exact hp.overrideOk hx
  | override t s hs hv =>
    exact overrideOk_accept_override
      (x := { x with overrideValue := some s, overrideType := t }) rfl rfl
  | unoverride =>
    unfold Resource.unoverride
    split
    · exact hx
    · split
      · exact overrideOk_accept rfl _ _
      · exact overrideOk_of_not_overridden rfl
  | default t s hs hv =>
    unfold Resource.withDefault
    dsimp only
    split
    · next hdef => exact overrideOk_accept (overridden_of_operatesOnDefault hdef) t s
    · exact hx
  | optional t mandatory hio =>
    refine hx.congr ?_ rfl rfl rfl rfl
    simp [Resource.overridden, Resource.acceptable, hio]
  | observe ho => exact hobs _ ho _ _ rfl rfl rfl rfl rfl
  | configure ho => exact hobs _ ho _ _ rfl rfl rfl rfl rfl
  | extraction ho => exact hobs _ ho _ _ rfl rfl rfl rfl rfl
  | restore env content ho => exact hobs _ ho _ _ rfl rfl rfl rfl rfl
  | _ => exact hx

/-- A resource that replaces another one takes the override along, and with it the current value:
an Input or Output only if the types agree. -/
theorem overrideOk_moveValues {old new : ResRef} {e : EntryRef} (hy : Created P e et y)
    (hkeep : keepsOverride (.replacing old new x et y) = true) (hx : x.OverrideOk) :
    (moveValues P x y et).OverrideOk := by
  obtain ⟨_, _, hov, hovt, _⟩ := moveValues_moved (P := P) x y et
  have hcls := cls_moveValues (P := P) x y et
  intro ho
  simp only [Resource.overridden, Bool.and_eq_true, hov, hovt] at ho
  obtain ⟨hsome, hacc⟩ := ho
  have hwas : x.overridden = true := by
    simp only [keepsOverride, Bool.or_eq_true, Option.isNone_iff_eq_none] at hkeep
    rcases hkeep with hnone | hacc'
    · rw [hnone] at hsome
      cases hsome
    · simp [Resource.overridden, hsome, hacc']
  obtain ⟨value, override, hcur, hval, htype, heq⟩ := hx hwas
  rcases moveValues_current (P := P) x y et with ⟨⟨hio, hne⟩, _⟩ | ⟨_, hv, ht⟩
  · obtain ⟨fixed, mandatory, hyc⟩ := ioPoint_of_isIo hy.classOk hio
    rw [acceptable_ioPoint (hcls.trans hyc)] at hacc
    have hfixed : x.overrideType = fixed := of_decide_eq_true hacc
    exact absurd (htype.trans (hfixed.trans (hy.fixed hyc).symm)) hne
  · exact ⟨value, override, hv.trans hcur, hov.trans hval, by rw [ht, hovt, htype], heq⟩

theorem override_invariant :
    ResourceInvariant P (keepsOverride · = true) fun _ x => x.OverrideOk where
  unrouted _ _ := Iff.rfl
  edit _ _ _ _ _ _ _ _ hedit _ hx := hedit.overrideOk hx
  created _ _ _ hy := by
    apply overrideOk_of_not_overridden
    simp [Resource.overridden, hy.blank.overrideValue]
  handlers _ _ _ hx := hx
  moved _ _ _ _ _ _ _ _ _ _ hy hkeep hx := overrideOk_moveValues hy hkeep hx

/-- The override law holds in every state that is reached without replacing an Input or Output
whose override is of another type. -/
theorem override_law (hr : Reachable P h) (hok : ∀ e ∈ h.log, keepsOverride e = true) :
    OverrideLaw h := by
  intro r x entry hx hentry ho
  have hcls := (reachable_wellFormed hr).cls r x entry hx hentry
  rw [resIsOverridden_eq hcls] at ho
  exact reachable_each override_invariant hr hok r x entry hx hentry (Except.ok.inj ho)

/-- An override that outlives the Input it was set on: the administrator's settings stay. -/
def overriddenRun : List Op :=
  [.ioCreateInput 0 (ascii "x") .string [],
   .adminSetOverride (ascii "/app/a/x") (.string (ascii "on")),
   .ioPush 0 (ascii "x") (double 3) (.string (ascii "off")),
   .ioDeleteResource 0 (ascii "x")]

theorem override_law_overriddenRun : ∃ h, Reachable smallPlatform h ∧
    ((h.resources 1).any Resource.overridden) = true ∧ OverrideLaw h := by
  have hrun : smallRunEnds overriddenRun (fun h =>
      (h.resources 1).any Resource.overridden && h.log.all keepsOverride) = true := by
    decide +kernel
  obtain ⟨h, hr, hp⟩ := exists_of_smallRunEnds hrun
  rw [Bool.and_eq_true] at hp
  exact ⟨h, hr, hp.1, override_law hr (List.all_eq_true.mp hp.2)⟩

/-- A string override of a numeric Input is not in effect until the Input is deleted. -/
def revivedOverrideRun : List Op :=
  [.ioCreateInput 0 (ascii "x") .numeric [],
   .adminSetOverride (ascii "/app/a/x") (.string (ascii "on")),
   .ioDeleteResource 0 (ascii "x")]

theorem override_law_fails : ∃ h, Reachable smallPlatform h ∧ ¬ OverrideLaw h := by
  have hrun : smallRunEnds revivedOverrideRun (fun h =>
      (h.resources 1).any fun x => x.overridden && x.currentValue.isNone) = true := by
    decide +kernel
  obtain ⟨h, hr, hp⟩ := exists_of_smallRunEnds hrun
  refine ⟨h, hr, fun hlaw => ?_⟩
  obtain ⟨x, hx, hp⟩ := (Option.any_eq_true _ _).mp hp
  rw [Bool.and_eq_true, Option.isNone_iff_eq_none] at hp
  have hwf := reachable_wellFormed hr
  obtain ⟨entry, hentry, _⟩ := hwf.entryOf 1 x hx
  have ho := (resIsOverridden_eq (hwf.cls 1 x entry hx hentry)).trans (congrArg Except.ok hp.1)
  obtain ⟨value, _, hvalue, _⟩ := hlaw 1 x entry hx hentry ho
  rw [hp.2] at hvalue
  cases hvalue

end MangOH.DataHub
