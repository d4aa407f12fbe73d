import MangOH.DataHub.HeldJsonPush

/-! Changes of the settings of resources keep a property of the JSON texts that the hub holds. -/
namespace MangOH.DataHub

open Outcome

variable {P : Platform} {G : CString → Prop} {b h h' : Hub} {r : ResRef} {x y : Resource}
  {s : DataSample} {t : DataType} {et : EntryType} {e : EntryRef}

/-! ### Overrides and defaults -/

theorem kept_resSetOverride (hP : P.Keeps G) (fuel : Nat) (hk : Kept P G b h) (r : ResRef)
    (hs : h.Coerces P G → s.value.Json G) :
    Returns (resSetOverride P fuel h r t s) (Kept P G b) := by
  unfold resSetOverride
  refine (kept_getResource h r).bind fun x hx => ?_
  refine Returns.skip fun et => Returns.skip fun acceptable => ?_
  have hset : Kept P G b (h.setResource r { x with
      overrideValue := some { s with hops := 1 }, overrideType := t }) :=
    hk.set r fun hc => { hk.resource hx hc with
      override := fun s' heq => by
        cases heq
        exact hs hc }
  split
  · exact kept_updateCurrentValue (kept_resPush hP fuel) hset r hs
  · exact hset

theorem json_fallback (hx : x.Json G) : Returns (fallback et x) fun f =>
    ∀ t s, f = some (t, s) → s.value.Json G := by
  have husable : ∀ (value : Option DataSample) t, (∀ s, value = some s → s.value.Json G) →
      Returns (fallback.usable et x value t) fun v => ∀ s, v = some s → s.value.Json G := by
    intro value t hvalue
    unfold fallback.usable
    cases value with
    | none => simp
    | some s =>
      refine Returns.skip fun acceptable s' heq => ?_
      split at heq
      · exact hvalue s' heq
      · cases heq
  unfold fallback
  refine (husable _ _ hx.pushed).bind fun pushed hpushed => ?_
  cases pushed with
  | some s =>
    rintro t s' heq
    cases heq
    exact hpushed s rfl
  | none =>
    refine (husable _ _ hx.default).bind fun default hdefault t s' heq => ?_
    obtain ⟨s, hs, heq⟩ := Option.map_eq_some_iff.mp heq
    cases heq
    exact hdefault _ hs

theorem kept_resRemoveOverride (hP : P.Keeps G) (fuel : Nat) (hk : Kept P G b h) (r : ResRef) :
    Returns (resRemoveOverride P fuel h r) (Kept P G b) := by
  unfold resRemoveOverride
  refine (kept_getResource h r).bind fun x hx => ?_
  refine Returns.skip fun et => ?_
  have hk₁ := hk.emit (.unoverriding et x)
  have hx₁ : (h.emit (.unoverriding et x)).Coerces P G → Resource.Json G
      { x with overrideValue := none } := fun hc =>
    { hk₁.resource (r := r) hx hc with override := by simp }
  dsimp only
  split
  · exact hk₁
  · refine Sat.bind (Returns.of_ok fun _ heq => heq) fun restored hrestored => ?_
    have hset := hk₁.set r hx₁
    split
    · next t' s' =>
      exact kept_updateCurrentValue (kept_resPush hP fuel) hset r fun hc =>
        (json_fallback (hx₁ hc)).result hrestored t' s' rfl
    · exact hset

theorem kept_resSetDefault (hP : P.Keeps G) (fuel : Nat) (hk : Kept P G b h) (r : ResRef)
    (hs : h.Coerces P G → s.value.Json G) :
    Returns (resSetDefault P fuel h r t s) (Kept P G b) := by
  unfold resSetDefault
  refine (kept_getResource h r).bind fun x hx => ?_
  refine Returns.skip fun et => Returns.skip fun acceptable => Returns.skip fun onDefault => ?_
  have hset : Kept P G b (h.setResource r { x with
      defaultValue := some { s with hops := 1 }, defaultType := t }) :=
    hk.set r fun hc => { hk.resource hx hc with
      default := fun s' heq => by
        cases heq
        exact hs hc }
  split
  · exact kept_updateCurrentValue (kept_resPush hP fuel) hset r hs
  · exact hset

theorem kept_resRemoveDefault (hk : Kept P G b h) (r : ResRef) :
    Returns (resRemoveDefault h r) (Kept P G b) :=
  kept_modifyResource hk r fun x hx => { hx with default := by simp }

theorem kept_resMarkOptional (hk : Kept P G b h) (r : ResRef) :
    Returns (resMarkOptional h r) (Kept P G b) := by
  unfold resMarkOptional
  refine (kept_getResource h r).bind fun x hx => ?_
  split
  · exact hk.set r fun hc => { hk.resource hx hc with buffered := by simp }
  · exact id

/-! ### Observations -/

theorem kept_modifyObs (hk : Kept P G b h) (r : ResRef)
    {f : ObsContext → Observation → Except Fault (Observation × List ObsEvent)}
    (hf : ∀ ctx o, o.Json G → Returns (f ctx o) (ObsJson G)) :
    Returns (modifyObs h r f) (Kept P G b) := by
  unfold modifyObs
  refine (kept_getResource h r).bind fun x hx => ?_
  split
  · next o hcls =>
    refine Sat.bind (Returns.of_ok fun _ heq => heq) fun p hp => ?_
    have hp' : h.Coerces P G → ObsJson G p := fun hc =>
      (hf _ _ ((hk.resource hx hc).buffered o hcls)).result hp
    have hobs := hk.emitObs r p.2 fun hc => (hp' hc).files
    refine hobs.set r fun hc => ?_
    have hbefore : h.Coerces P G := fun e he => hc e (List.mem_append_left _ he)
    exact (hk.resource hx hbefore).observe (hp' hbefore).samples
  · exact id

theorem kept_setFilter (hk : Kept P G b h) (r : ResRef) {set : Observation → Observation}
    (hset : ∀ o, (set o).samples = o.samples) :
    Returns (setFilter set h r) (Kept P G b) := by
  unfold setFilter
  refine (kept_modifyObs hk r fun ctx o ho => ?_).bind fun h₁ hk₁ =>
    kept_flagConfigChange hk₁ r .filter
  exact .of_unsaved (ho.mono (hset o ▸ List.Subset.refl _)) unsaved_nil

theorem kept_resSetMinPeriod (hk : Kept P G b h) (r : ResRef) (minPeriod : Double) :
    Returns (resSetMinPeriod h r minPeriod) (Kept P G b) := kept_setFilter hk r fun _ => rfl

theorem kept_resSetHighLimit (hk : Kept P G b h) (r : ResRef) (highLimit : Double) :
    Returns (resSetHighLimit h r highLimit) (Kept P G b) := kept_setFilter hk r fun _ => rfl

theorem kept_resSetLowLimit (hk : Kept P G b h) (r : ResRef) (lowLimit : Double) :
    Returns (resSetLowLimit h r lowLimit) (Kept P G b) := kept_setFilter hk r fun _ => rfl

theorem kept_resSetChangeBy (hk : Kept P G b h) (r : ResRef) (changeBy : Double) :
    Returns (resSetChangeBy h r changeBy) (Kept P G b) := kept_setFilter hk r fun _ => rfl

theorem kept_resSetBufferMaxCount (hk : Kept P G b h) (r : ResRef) (count : UInt32) :
    Returns (resSetBufferMaxCount P h r count) (Kept P G b) :=
  kept_modifyObs hk r fun _ _ ho => json_setBufferMaxCount ho count

theorem kept_resSetBufferBackupPeriod (hk : Kept P G b h) (r : ResRef) (seconds : UInt32) :
    Returns (resSetBufferBackupPeriod P h r seconds) (Kept P G b) :=
  kept_modifyObs hk r fun _ _ ho => json_setBufferBackupPeriod ho seconds

theorem kept_resSetTransform (hk : Kept P G b h) (r : ResRef) (transformType : TransformType) :
    Returns (resSetTransform h r transformType) (Kept P G b) := by
  unfold resSetTransform
  refine (kept_modifyObs hk r fun _ _ ho => json_setTransform ho transformType).bind
    fun h₁ hk₁ => ?_
  refine Sat.bind (kept_modifyResource hk₁ r fun x hx => { hx with pushed := by simp })
    fun h₂ hk₂ => ?_
  exact kept_flagConfigChange hk₂ r .transform

theorem kept_resSetJsonExtraction (hk : Kept P G b h) (r : ResRef) (extractionSpec : CString) :
    Returns (resSetJsonExtraction h r extractionSpec) (Kept P G b) := by
  unfold resSetJsonExtraction
  refine (kept_modifyObs hk r fun _ o ho => ?_).bind fun h₁ hk₁ => hk₁.emit _
  split
  · exact .of_unsaved ho unsaved_nil
  · exact id

theorem mem_files {path : CString} {content : Bytes} (hfile : h.file path = some content) :
    ∃ f ∈ h.files, f.2 = content := by
  obtain ⟨f, hf, rfl⟩ := Option.map_eq_some_iff.mp hfile
  exact ⟨f, List.mem_of_find?_eq_some hf, rfl⟩

theorem kept_resRestoreBackup (hP : P.Keeps G) (fuel : Nat) (hk : Kept P G b h) (r : ResRef) :
    Returns (resRestoreBackup P fuel h r) (Kept P G b) := by
  unfold resRestoreBackup
  refine (kept_getResource h r).bind fun x hx => ?_
  cases getBackupFilePath P (maxBackupFilePathBytes P) (obsContext h x) with
  | none => exact hk
  | some path =>
    dsimp only
    split
    · exact hk
    · next content hcontent =>
      have hread : h.Coerces P G → BackupJson G content := by
        intro hc
        split at hcontent
        · obtain ⟨f, hf, rfl⟩ := mem_files hcontent
          exact (hk.json hc).files f hf
        · cases hcontent
      split
      · next o hcls =>
        refine Sat.bind (Returns.of_ok fun _ heq => heq) fun p hp => ?_
        have hrestored : h.Coerces P G → p.1.Json G ∧
            (∀ s, p.2.2 = some s → s.value.Json G) ∧ Unsaved p.2.1 := fun hc =>
          (hread hc h.env o ((hk.resource hx hc).buffered o hcls)).result hp
        have hobs := (hk.emit (.restoring r h.env content)).emitObs r p.2.1
          fun hc _ path content hmem => absurd hmem ((hrestored fun e he =>
            hc e (List.mem_append_left _ he)).2.2 path content)
        have hbefore : ((h.emit (.restoring r h.env content)).emitObs r p.2.1).Coerces P G →
            h.Coerces P G := fun hc e he =>
          hc e (List.mem_append_left _ (List.mem_append_left _ he))
        have hset := hobs.set r (y := { x with cls := .observation p.1 }) fun hc =>
          (hk.resource hx (hbefore hc)).observe (hrestored (hbefore hc)).1
        split
        · next s hs =>
          exact kept_resPush hP fuel r _ [] hset fun hc => (hrestored (hbefore hc)).2.1 s hs
        · exact hset
      · exact id

/-! ### Replacing and deleting resources -/

theorem kept_moveSource (hk : Kept P G b h) (src dest : ResRef) :
    Returns (moveSource h src dest) (Kept P G b) := by
  unfold moveSource
  refine Returns.skip fun x => ?_
  split
  · exact hk
  · refine Sat.bind (kept_modifyResource hk _ fun x hx => { hx with }) fun h₁ hk₁ => ?_
    refine Sat.bind (kept_modifyResource hk₁ _ fun x hx => { hx with }) fun h₂ hk₂ => ?_
    exact kept_modifyResource hk₂ _ fun x hx => { hx with }

theorem kept_moveDests (src dest : ResRef) (dests : List ResRef) (hk : Kept P G b h) :
    Returns (moveDests src dest h dests) (Kept P G b) := by
  induction dests generalizing h with
  | nil => exact hk
  | cons d rest ih =>
    unfold moveDests
    refine Sat.bind (kept_modifyResource hk _ fun x hx => { hx with }) fun h₁ hk₁ => ?_
    refine Sat.bind (kept_modifyResource hk₁ _ fun x hx => { hx with }) fun h₂ hk₂ => ?_
    refine Sat.bind (kept_modifyResource hk₂ _ fun x hx => { hx with }) fun h₃ hk₃ => ?_
    exact ih hk₃

theorem Resource.Json.emptied (hx : x.Json G) : x.emptied.Json G :=
  { hx with
    current := by simp [Resource.emptied]
    pushed := by simp [Resource.emptied]
    override := by simp [Resource.emptied]
    default := by simp [Resource.emptied] }

theorem Resource.Json.moved (hx : x.Json G) (hy : y.Json G) : (moveValues P x y et).Json G := by
  have hcurrent : ∀ s, (moveValues P x y et).currentValue = some s → s.value.Json G := by
    intro s hs
    unfold moveValues at hs
    dsimp only at hs
    split at hs
    · split at hs
      · exact hx.current s hs
      · exact hy.current s hs
    · exact hx.current s hs
  have hrest : (moveValues P x y et).jsonExample = y.jsonExample ∧
      (moveValues P x y et).cls = y.cls := by
    unfold moveValues
    dsimp only
    split
    · split
      · exact ⟨rfl, rfl⟩
      · exact ⟨rfl, rfl⟩
    · exact ⟨rfl, rfl⟩
  exact ⟨hcurrent, hx.pushed, hx.override, hx.default, hrest.1 ▸ hy.jsonExample,
    hrest.2 ▸ hy.buffered⟩

theorem kept_resMoveAdminSettings (hk : Kept P G b h) (src dest : ResRef) (et : EntryType) :
    Returns (resMoveAdminSettings P h src dest et) (Kept P G b) := by
  unfold resMoveAdminSettings
  refine (kept_getResource h src).bind fun x hx => ?_
  refine (kept_getResource h dest).bind fun y hy => ?_
  have hset := (hk.set src fun hc => (hk.resource hx hc).emptied).set dest
    (y := moveValues P x y et) fun hc => (hk.resource hx hc).moved (hk.resource hy hc)
  refine (kept_moveSource hset src dest).bind fun h₁ hk₁ => ?_
  exact Returns.skip fun s => kept_moveDests src dest s.destList hk₁

theorem kept_dropDestinations (fuel : Nat) (hk : Kept P G b h) (r : ResRef) :
    Returns (dropDestinations P fuel h r) (Kept P G b) := by
  induction fuel generalizing h with
  | zero =>
    unfold dropDestinations
    exact id
  | succ fuel ih =>
    unfold dropDestinations
    refine Returns.skip fun x => ?_
    split
    · exact hk
    · next dest _ _ => exact (kept_resSetSource fuel hk dest none).bind fun p hp => ih hp

theorem kept_dropSettings (fuel : Nat) (hk : Kept P G b h) (r : ResRef) :
    Returns (dropSettings P fuel h r) (Kept P G b) := by
  unfold dropSettings
  refine Sat.bind (kept_modifyResource hk r fun x hx =>
    { hx with current := by simp, pushed := by simp }) fun h₁ hk₁ => ?_
  refine (kept_resSetSource fuel hk₁ r none).bind fun p hp => ?_
  refine (kept_dropDestinations fuel hp r).bind fun h₂ hk₂ => ?_
  exact kept_modifyResource hk₂ r fun x hx =>
    { hx with override := by simp, default := by simp, jsonExample := by simp }

theorem kept_destructObs (hk : Kept P G b h) (r : ResRef) (x : Resource) (o : Observation) :
    Kept P G b (destructObs P h r x o) := by
  have hunsaved : Unsaved (.destructing o.backupTimer ::
      ((if 0 < o.backupPeriod then deleteBackup P (obsContext h x) else []) ++
        o.readOpList.map fun op =>
          ObsEvent.readDone { op with nextEntryPtr := none } .commError)) := by
    intro path content hmem
    rcases List.mem_cons.mp hmem with heq | hmem
    · cases heq
    · rcases List.mem_append.mp hmem with hmem | hmem
      · split at hmem
        · exact unsaved_deleteBackup path content hmem
        · cases hmem
      · obtain ⟨op, _, heq⟩ := List.mem_map.mp hmem
        cases heq
  have hobs := hk.emitObs r _ fun _ _ path content hmem => absurd hmem (hunsaved path content)
  unfold destructObs
  dsimp only
  split
  · exact hobs.frame rfl rfl rfl
  · exact hobs

theorem kept_setHandlers (list : List HandlerRef) (hk : Kept P G b h) :
    Kept P G b (list.foldl (fun h p => h.setHandler p none) h) := by
  induction list generalizing h with
  | nil => exact hk
  | cons p list ih => exact ih (hk.frame rfl rfl rfl)

theorem kept_releaseResource (hk : Kept P G b h) (r : ResRef) :
    Returns (releaseResource P h r) (Kept P G b) := by
  unfold releaseResource
  refine Returns.skip fun x => ?_
  have hrest : ∀ h₁ : Hub, Kept P G b h₁ →
      Returns (if x.srcPtr.isSome ∨ x.destList ≠ [] then .error .routeAssertion
        else pure ((x.pushHandlerList.foldl (fun h p => h.setHandler p none) h₁).freeResource r) :
        Except Fault Hub) (Kept P G b) := by
    intro h₁ hk₁
    split
    · exact id
    · exact (kept_setHandlers x.pushHandlerList hk₁).free r
  cases x.cls with
  | observation o => exact hrest _ (kept_destructObs hk r x o)
  | _ => exact hrest _ hk

theorem kept_resDeleteObservation (fuel : Nat) (hk : Kept P G b h) (r : ResRef) :
    Returns (resDeleteObservation P fuel h r) (Kept P G b) :=
  (kept_dropSettings fuel hk r).bind fun _ hk₁ => kept_releaseResource hk₁ r

theorem kept_resAddPushHandler (hk : Kept P G b h) (r : ResRef) (t : DataType) :
    Returns (resAddPushHandler h r t) fun p => Kept P G b p.1 := by
  have hadded : Kept P G b { h.setHandler h.nextHandler (some ⟨t, r⟩) with
      nextHandler := h.nextHandler + 1 } := hk.frame rfl rfl rfl
  unfold resAddPushHandler
  refine Sat.bind (kept_modifyResource hadded r fun x hx => { hx with }) fun h₁ hk₁ => ?_
  exact hk₁

theorem kept_handlerRemove (hk : Kept P G b h) (p : HandlerRef) :
    Returns (handlerRemove h p) (Kept P G b) := by
  unfold handlerRemove
  split
  · exact hk
  · refine Sat.bind (kept_modifyResource hk _ fun x hx => { hx with }) fun h₁ hk₁ => ?_
    exact hk₁.frame rfl rfl rfl

end MangOH.DataHub
