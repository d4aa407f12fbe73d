import MangOH.DataHub.PushRecords

/-! What setting a default does to a resource that has a value, and to one that has none. -/
namespace MangOH.DataHub

open Outcome

variable {P : Platform} {h : Hub} {r : ResRef} {x : Resource} {t : DataType} {s : DataSample}
  {entry : Entry}

/-! ### The rule -/

/-- The state in which only the default of a resource is another one. -/
def recordDefault (h : Hub) (r : ResRef) (x : Resource) (value : DataSample) : Hub :=
  h.setResource r
    { x with defaultValue := some { value with hops := 1 }, defaultType := value.type }

/-- A default leaves a value that was pushed alone, without a push to a destination or a call of a
handler; where there is no value it becomes the current value as a push that is accepted does. -/
structure DefaultRule (P : Platform) (h : Hub) (r : ResRef) (x : Resource) (value : DataSample) :
    Prop where
  kept : ∀ s, x.currentValue = some s → TookPush P h.log r x.currentType s →
    ∀ fuel, resSetDefault P fuel h r value.type value = .ok (recordDefault h r x value)
  taken : x.currentValue = none → x.acceptable value.type = true →
    ∀ fuel, resSetDefault P fuel h r value.type value =
      updateCurrentValue P (resPush P fuel) (recordDefault h r x value) r value.type
        { value with hops := 1 }

/-- What is on record agrees with where the current value comes from. -/
structure RecordAgrees (P : Platform) (h : Hub) (r : ResRef) (x : Resource) (t : DataType) :
    Prop where
  kept : ∀ s, x.currentValue = some s → TookPush P h.log r x.currentType s →
    x.acceptable t = true → x.overridden = true ∨ x.onRecord = true
  taken : x.currentValue = none → x.acceptable t = true →
    x.overridden = false ∧ x.onRecord = false

/-! ### One call -/

theorem operatesOnDefault_iff (x : Resource) :
    x.operatesOnDefault = true ↔ x.overridden = false ∧ x.onRecord = false := by
  unfold Resource.operatesOnDefault Resource.onRecord
  cases x.pushedValue <;> simp

theorem resSetDefault_eq (hx : h.resources r = some x) (he : h.entries x.entryRef = some entry)
    (hcls : ClassOk entry.type x.cls) (value : DataSample) (fuel : Nat) :
    resSetDefault P fuel h r value.type value =
      if x.acceptable value.type && x.operatesOnDefault then
        updateCurrentValue P (resPush P fuel) (recordDefault h r x value) r value.type
          { value with hops := 1 }
      else .ok (recordDefault h r x value) := by
  have htype : h.entryType x = .ok entry.type := by
    simp [Hub.entryType, Hub.getEntry, he]
  have hget : h.getResource r = .ok x := getResource_ok.mpr hx
  unfold resSetDefault
  simp only [hget, ok_bind, htype]
  generalize hy : ({ x with defaultValue := some { value with hops := 1 }
                            defaultType := value.type } : Resource) = y
  have hycls : ClassOk entry.type y.cls := hy ▸ hcls
  have hacc : y.acceptable value.type = x.acceptable value.type := by rw [← hy]; rfl
  have hon : y.operatesOnDefault = x.operatesOnDefault := by rw [← hy]; rfl
  rw [isAcceptable_eq hycls, ok_bind, operatesOnDefault_eq hycls, ok_bind, hacc, hon]
  rw [recordDefault, hy]
  rfl

/-- An update of a current value is noted before anything else happens. -/
theorem updateCurrentValue_ne (hx : h.resources r = some x)
    (he : h.entries x.entryRef = some entry) (hcls : ClassOk entry.type x.cls)
    (hs : s.type = t) (hacc : x.acceptable t = true) :
    updateCurrentValue P (resPush P 0) h r t s ≠ .ok h := by
  have htype : h.entryType x = .ok entry.type := by
    simp [Hub.entryType, Hub.getEntry, he]
  intro hok
  unfold updateCurrentValue at hok
  rw [getResource_ok.mpr hx, ok_bind, htype, ok_bind, isAcceptable_eq hcls, ok_bind, hacc] at hok
  dsimp only [Bool.not_true] at hok
  rw [if_neg (by simp)] at hok
  obtain ⟨h₁, hpush, hcall⟩ := bind_eq_ok.mp hok
  cases hdests : x.destList with
  | cons dest dests =>
    rw [hdests, List.foldlM_cons] at hpush
    obtain ⟨h₂, hfirst, -⟩ := bind_eq_ok.mp hpush
    cases hfirst
  | nil =>
    rw [hdests] at hpush
    cases hpush
    rcases handlerCallAll_eq (P := P) x.pushHandlerList _ hs with ⟨-, hall⟩ | ⟨-, herr⟩
    · have hlog := congrArg (fun h : Hub => h.log.length) (Except.ok.inj (hall.symm.trans hcall))
      simp [Hub.emit, Hub.setResource] at hlog
    · cases herr.symm.trans hcall

/-- In every state, the rule holds if and only if the record agrees. -/
theorem defaultRule_iff (hr : Reachable P h) (hx : h.resources r = some x) (value : DataSample) :
    DefaultRule P h r x value ↔ RecordAgrees P h r x value.type := by
  have hwf := reachable_wellFormed hr
  obtain ⟨entry, he, -⟩ := hwf.entryOf r x hx
  have hcls := hwf.cls r x entry hx he
  have hcall := resSetDefault_eq (P := P) hx he hcls value
  have hne : x.acceptable value.type = true →
      updateCurrentValue P (resPush P 0) (recordDefault h r x value) r value.type
        { value with hops := 1 } ≠ .ok (recordDefault h r x value) := by
    intro hacc
    exact updateCurrentValue_ne (h := recordDefault h r x value) (Function.update_self ..) he hcls
      rfl hacc
  constructor
  · intro hrule
    refine ⟨fun s hs htook hacc => ?_, fun hnone hacc => ?_⟩
    · have hzero := hcall 0
      rw [hrule.kept s hs htook 0] at hzero
      by_contra hnot
      rw [not_or, Bool.not_eq_true, Bool.not_eq_true] at hnot
      rw [if_pos (by simp [hacc, operatesOnDefault_iff, hnot])] at hzero
      exact hne hacc hzero.symm
    · have hzero := hcall 0
      rw [hrule.taken hnone hacc 0] at hzero
      rw [← operatesOnDefault_iff]
      by_contra hnot
      rw [if_neg (by simp [hnot])] at hzero
      exact hne hacc hzero
  · intro hagrees
    refine ⟨fun s hs htook fuel => ?_, fun hnone hacc fuel => ?_⟩
    · rw [hcall, if_neg]
      rw [Bool.and_eq_true, operatesOnDefault_iff]
      rintro ⟨hacc, ho, hrec⟩
      rcases hagrees.kept s hs htook hacc with hyes | hyes
      · exact absurd (ho.symm.trans hyes) (by simp)
      · exact absurd (hrec.symm.trans hyes) (by simp)
    · rw [hcall, if_pos]
      rw [Bool.and_eq_true, operatesOnDefault_iff]
      exact ⟨hacc, hagrees.taken hnone hacc⟩

/-! ### Runs -/

theorem keepsOverride_of_recordsWell {e : Event} (he : recordsWell e) : keepsOverride e = true := by
  cases e <;> first | rfl | exact he.1

theorem recordAgrees_of_recordsWell (hr : Reachable P h) (hok : ∀ e ∈ h.log, recordsWell e)
    (hx : h.resources r = some x) (t : DataType) : RecordAgrees P h r x t := by
  obtain ⟨entry, he, -⟩ := (reachable_wellFormed hr).entryOf r x hx
  have hrecord := reachable_each record_invariant hr hok r x entry hx he
  have hoverride := reachable_each override_invariant hr
    (fun e hmem => keepsOverride_of_recordsWell (hok e hmem)) r x entry hx he
  refine ⟨fun s hs htook _ => .inr ?_, fun hnone _ => ⟨?_, ?_⟩⟩
  · have hpushed := ((reachable_traced hr hok).recorded r _ s htook).2 x hx
    rw [Resource.onRecord, (hrecord hpushed).1, Bool.and_true]
    exact Option.isSome_iff_ne_none.mpr hpushed
  · cases ho : x.overridden with
    | false => rfl
    | true =>
      obtain ⟨value, _, hvalue, -⟩ := hoverride ho
      cases hnone.symm.trans hvalue
  · cases hp : x.pushedValue with
    | none => simp [Resource.onRecord, hp]
    | some s => exact absurd hnone (hrecord (by simp [hp])).2

/-- In every state a default is set by the rule if and only if the record agrees with where the
current value comes from, and in runs that keep the record well it does. -/
theorem default_rule (hr : Reachable P h) (hx : h.resources r = some x) (value : DataSample) :
    (DefaultRule P h r x value ↔ RecordAgrees P h r x value.type) ∧
      ((∀ e ∈ h.log, recordsWell e) → DefaultRule P h r x value) := by
  have hiff := defaultRule_iff hr hx value
  exact ⟨hiff, fun hok => hiff.mpr (recordAgrees_of_recordsWell hr hok hx value.type)⟩

/-- A push of the Input's own type. -/
def numericRun : List Op :=
  [.ioCreateInput 0 (ascii "x") .numeric [],
   .ioPush 0 (ascii "x") (double 3) (.numeric (double 20))]

def numericDefault : DataSample := ⟨double 9, .numeric (double 5), [], 0⟩

def textDefault : DataSample := ⟨double 9, .string ⟨ascii "a", by decide, by decide⟩, [], 0⟩

theorem default_rule_numericRun : ∃ h x, Reachable smallPlatform h ∧ h.resources 0 = some x ∧
    x.currentValue ≠ none ∧
    DefaultRule smallPlatform h 0 x numericDefault := by
  have hrun : smallRunEnds numericRun (fun h =>
      (h.resources 0).any fun x => x.onRecord && x.currentValue.isSome) = true := by
    decide +kernel
  obtain ⟨h, hr, hp⟩ := exists_of_smallRunEnds hrun
  obtain ⟨x, hx, hp⟩ := (Option.any_eq_true _ _).mp hp
  rw [Bool.and_eq_true] at hp
  have hsome := Option.isSome_iff_ne_none.mp hp.2
  refine ⟨h, x, hr, hx, hsome, (default_rule hr hx _).1.mpr ⟨fun _ _ _ _ => .inr hp.1, ?_⟩⟩
  exact fun hnone => absurd hnone hsome

/-- A number that an Input of strings has turned into a text. -/
def coercedRun : List Op :=
  [.ioCreateInput 0 (ascii "x") .string [],
   .ioPush 0 (ascii "x") (double 3) (.numeric (double 20))]

/-- The current value of a resource is what a push in the log has led to. -/
def showsPush (h : Hub) (r : ResRef) (x : Resource) : Bool :=
  h.log.any fun e =>
    match e with
    | .pushing q ctx y t u s =>
      match y.cls, resPushLocal smallPlatform ctx .input y t u s with
      | .ioPoint _ _, .ok p =>
        decide (q = r) && p.sample.any fun a => decide (a.1 = x.currentType ∧
          x.currentValue = some a.2)
      | _, _ => false
    | _ => false

theorem tookPush_of_showsPush (hp : showsPush h r x = true) :
    ∃ s, x.currentValue = some s ∧ TookPush smallPlatform h.log r x.currentType s := by
  obtain ⟨e, hmem, hp⟩ := List.any_eq_true.mp hp
  split at hp
  · next q ctx y t u s =>
    split at hp
    · next fixed mandatory p hcls hlocal =>
      rw [Bool.and_eq_true, decide_eq_true_eq] at hp
      obtain ⟨rfl, hany⟩ := hp
      obtain ⟨a, ha, hcur⟩ := (Option.any_eq_true _ _).mp hany
      obtain ⟨htype, hvalue⟩ := of_decide_eq_true hcur
      refine ⟨a.2, hvalue, htype ▸ .pushed hmem ?_ hlocal ha⟩
      rw [hcls]
      trivial
    · cases hp
  · cases hp

def defaultKeeps (h : Hub) (r : ResRef) (value : DataSample) (x : Resource) : Bool :=
  match resSetDefault smallPlatform 8 h r value.type value with
  | .ok h' => (h'.resources r).any fun y => decide (y.currentValue = x.currentValue)
  | .error _ => false

/-- The default takes the place of the text. -/
theorem default_rule_fails : ¬ ∀ h r x value, Reachable smallPlatform h →
    h.resources r = some x → DefaultRule smallPlatform h r x value := by
  intro hall
  have hrun : smallRunEnds coercedRun (fun h => (h.resources 0).any fun x => showsPush h 0 x &&
      !defaultKeeps h 0 textDefault x) = true := by
    decide +kernel
  obtain ⟨h, hr, hp⟩ := exists_of_smallRunEnds hrun
  obtain ⟨x, hx, hp⟩ := (Option.any_eq_true _ _).mp hp
  rw [Bool.and_eq_true, Bool.not_eq_true'] at hp
  obtain ⟨s, hs, htook⟩ := tookPush_of_showsPush hp.1
  have hkept := (hall h 0 x textDefault hr hx).kept s hs htook 8
  have hstill := hp.2
  rw [defaultKeeps, hkept] at hstill
  simp [recordDefault, Hub.setResource] at hstill

end MangOH.DataHub
