import MangOH.DataHub.HeldJsonSettings

/-! The resource tree and the services keep a property of the JSON texts that the hub holds. -/
namespace MangOH.DataHub

open Outcome

variable {P : Platform} {G : CString → Prop} {b h h' : Hub} {r : ResRef} {x y : Resource}
  {s : DataSample} {t : DataType} {et : EntryType} {e : EntryRef}

/-! ### The resource tree -/

theorem kept_addChild (hk : Kept P G b h) (parent : EntryRef) (name : CString) :
    Returns (addChild P h parent name) fun p => Kept P G b p.1 :=
  (kept_modifyEntry hk parent _).bind fun _ hk₁ => hk₁.frame rfl rfl rfl

theorem kept_releaseEntry (fuel : Nat) (hk : Kept P G b h) (e : EntryRef) :
    Returns (releaseEntry fuel h e) (Kept P G b) := by
  induction fuel generalizing h e with
  | zero =>
    unfold releaseEntry
    exact id
  | succ fuel ih =>
    unfold releaseEntry
    refine Returns.skip fun entry => ?_
    split
    · exact hk.frame rfl rfl rfl
    · split
      · exact id
      · split
        · exact id
        · refine (kept_modifyEntry hk _ _).bind fun h₁ hk₁ => ?_
          exact ih (h := h₁.freeEntry e) (hk₁.frame rfl rfl rfl) _

theorem kept_walk (doCreate : Bool) (names : List CString) (hk : Kept P G b h) (e : EntryRef) :
    Returns (walk P doCreate names h e) fun p => Kept P G b p.1 := by
  induction names generalizing h e with
  | nil => exact hk
  | cons name names ih =>
    unfold walk
    split
    · exact hk
    · refine Returns.skip fun found => ?_
      split
      · exact ih hk _
      · split
        · exact (kept_addChild hk e name).bind fun p hp => ih hp p.2
        · exact hk

theorem kept_goToEntry (hk : Kept P G b h) (base : EntryRef) (path : CString) (doCreate : Bool) :
    Returns (goToEntry P h base path doCreate) fun p => Kept P G b p.1 := by
  unfold goToEntry
  split
  · exact hk
  · exact kept_walk doCreate _ hk base

theorem kept_callResourceTreeChangeHandlers (hk : Kept P G b h) (e : EntryRef) (et : EntryType)
    (operation : ResourceOperation) :
    Returns (callResourceTreeChangeHandlers P h e et operation) (Kept P G b) :=
  Returns.skip fun _ => hk.emit _

/-- A new resource has no samples. -/
theorem json_created (hy : Created P e et y) : y.Json G := by
  have hblank := hy.blank
  refine ⟨by simp [hblank.currentValue], by simp [hblank.pushedValue],
    by simp [hblank.overrideValue], by simp [hblank.defaultValue], by simp [hblank.jsonExample], ?_⟩
  intro o heq s hs
  cases hy with
  | observation =>
    cases heq
    simp [obsCreate, Observation.samples] at hs
  | _ => cases heq

theorem kept_replaceResource (hk : Kept P G b h) (hy : Created P e et y) :
    Returns (replaceResource P h e y et) fun p => Kept P G b p.1 := by
  have hcreated : Kept P G b { h.setResource h.nextRes y with nextRes := h.nextRes + 1 } :=
    (hk.set h.nextRes fun _ => json_created hy).frame rfl rfl rfl
  have hdispose : ∀ (h₁ : Hub) entry r, Kept P G b h₁ →
      Returns (replaceResource.dispose P e y et h₁ entry r) (Kept P G b) := by
    intro h₁ entry r hk₁
    unfold replaceResource.dispose
    split
    · exact hk₁.emit _
    · refine Returns.skip fun x => ?_
      refine (kept_resMoveAdminSettings (hk₁.emit _) _ _ _).bind fun h₂ hk₂ => ?_
      exact kept_releaseResource hk₂ _
  unfold replaceResource
  refine Returns.skip fun entry => ?_
  refine (hdispose _ entry _ hcreated).bind fun h₁ hk₁ => ?_
  exact (kept_modifyEntry hk₁ e _).bind fun h₂ hk₂ => hk₂

theorem kept_resTreeGetResource (hk : Kept P G b h) (base : EntryRef) (path : CString) :
    Returns (resTreeGetResource P h base path) fun p => Kept P G b p.1 := by
  unfold resTreeGetResource
  refine (kept_goToEntry hk base path true).bind ?_
  rintro ⟨h₁, found⟩ hk₁
  cases found with
  | none => exact hk₁
  | some e =>
    refine Returns.skip fun entry => ?_
    split
    · exact (kept_replaceResource hk₁ .placeholder).bind fun p hp => hp
    · exact hk₁

theorem kept_getIo {create : EntryRef → Resource} (hc : ∀ e, Created P e et (create e))
    (hk : Kept P G b h) (base : EntryRef) (path : CString) :
    Returns (getIo P create et h base path) fun p => Kept P G b p.1 := by
  unfold getIo
  refine (kept_goToEntry hk base path true).bind ?_
  rintro ⟨h₁, found⟩ hk₁
  cases found with
  | none => exact hk₁
  | some e =>
    have hcreate : Returns (replaceResource P h₁ e (create e) et >>= fun p =>
        callResourceTreeChangeHandlers P p.1 e et .added >>= fun h₃ =>
        pure (h₃, some e)) fun p => Kept P G b p.1 := by
      refine (kept_replaceResource hk₁ (hc e)).bind fun p hp => ?_
      exact (kept_callResourceTreeChangeHandlers hp e et .added).bind fun h₃ hk₃ => hk₃
    refine Returns.skip fun entry => ?_
    split
    · exact hcreate
    · exact hcreate
    all_goals exact hk₁

theorem kept_resTreeGetObservation (hP : P.Keeps G) (fuel : Nat) (hk : Kept P G b h)
    (base : EntryRef) (path : CString) :
    Returns (resTreeGetObservation P fuel h base path) fun p => Kept P G b p.1 := by
  unfold resTreeGetObservation
  refine (kept_goToEntry hk base path true).bind ?_
  rintro ⟨h₁, found⟩ hk₁
  cases found with
  | none => exact hk₁
  | some e =>
    have hcreate : Returns (replaceResource P h₁ e (resCreateObservation e) .observation >>=
        fun p => resRestoreBackup P fuel p.1 p.2 >>= fun h₃ =>
        callResourceTreeChangeHandlers P h₃ e .observation .added >>= fun h₄ =>
        pure (h₄, some e)) fun p => Kept P G b p.1 := by
      refine (kept_replaceResource hk₁ .observation).bind fun p hp => ?_
      refine (kept_resRestoreBackup hP fuel hp p.2).bind fun h₃ hk₃ => ?_
      exact (kept_callResourceTreeChangeHandlers hk₃ e _ _).bind fun h₄ hk₄ => hk₄
    refine Returns.skip fun entry => ?_
    split
    · exact hcreate
    · exact hcreate
    all_goals exact hk₁

theorem kept_resTreeDeleteIO (hk : Kept P G b h) (e : EntryRef) :
    Returns ( resTreeDeleteIO P h e) (Kept P G b) := by
  unfold resTreeDeleteIO
  refine Returns.skip fun r => Returns.skip fun entry => ?_
  refine (kept_callResourceTreeChangeHandlers hk e _ _).bind fun h₁ hk₁ => ?_
  refine Returns.skip fun x => ?_
  split
  · exact (kept_replaceResource hk₁ .placeholder).bind fun p hp => hp
  · refine (kept_modifyEntry hk₁ e _).bind fun h₂ hk₂ => ?_
    refine (kept_releaseResource hk₂ r).bind fun h₃ hk₃ => ?_
    exact kept_releaseEntry _ hk₃ e

theorem kept_resTreeDeleteObservation (fuel : Nat) (hk : Kept P G b h) (e : EntryRef) :
    Returns (resTreeDeleteObservation P fuel h e) (Kept P G b) := by
  unfold resTreeDeleteObservation
  refine (kept_callResourceTreeChangeHandlers hk e _ _).bind fun h₁ hk₁ => ?_
  refine Returns.skip fun r => ?_
  refine (kept_resDeleteObservation fuel hk₁ r).bind fun h₂ hk₂ => ?_
  refine (kept_modifyEntry hk₂ e _).bind fun h₃ hk₃ => ?_
  exact kept_releaseEntry _ hk₃ e

theorem kept_resTreePush (hP : P.Keeps G) (fuel : Nat) (hk : Kept P G b h) (e : EntryRef)
    (hs : h.Coerces P G → s.value.Json G) :
    Returns (resTreePush P fuel h e t s) (Kept P G b) := by
  unfold resTreePush
  refine Returns.skip fun entry => ?_
  split
  · exact hk
  · exact Returns.skip fun r => kept_resPush hP fuel r t [] hk hs

theorem kept_resTreeSetSource (fuel : Nat) (hk : Kept P G b h) (dest : EntryRef)
    (src : Option EntryRef) :
    Returns (resTreeSetSource P fuel h dest src) fun p => Kept P G b p.1 := by
  unfold resTreeSetSource
  refine Returns.skip fun entry => ?_
  split
  · exact id
  · refine Returns.skip fun d => ?_
    cases src with
    | none => exact kept_resSetSource fuel hk d none
    | some e => exact Returns.skip fun entry => kept_resSetSource fuel hk d entry.resourcePtr

theorem kept_clearConfigChangingFlag (hk : Kept P G b h) (r : ResRef) :
    Returns (clearConfigChangingFlag h r) (Kept P G b) :=
  kept_modifyResource hk r fun _ hx => { hx with }

theorem kept_forEachResourceUnder {func : Hub → ResRef → Except Fault Hub}
    (hfunc : ∀ h r, Kept P G b h → Returns (func h r) (Kept P G b)) (fuel : Nat)
    (hk : Kept P G b h) (e : EntryRef) :
    Returns (forEachResourceUnder func fuel h e) (Kept P G b) := by
  induction fuel generalizing h e with
  | zero =>
    unfold forEachResourceUnder
    exact id
  | succ fuel ih =>
    unfold forEachResourceUnder
    refine Returns.skip fun entry => ?_
    refine Sat.foldlM hk fun h₁ c _ hk₁ => ?_
    refine Sat.bind (Q := Kept P G b) ?_ fun h₂ hk₂ => ih hk₂ c
    unfold forEachResourceUnder.apply
    refine Returns.skip fun child => ?_
    split
    · exact hfunc h₁ _ hk₁
    · exact hk₁

theorem kept_deleteIfUnused (hk : Kept P G b h) (path : CString) :
    Returns (deleteIfUnused P h path) (Kept P G b) := by
  unfold deleteIfUnused
  split
  · exact hk
  · split
    · exact hk
    · refine Returns.skip fun found => Returns.skip fun used => ?_
      cases used with
      | true => exact hk
      | false =>
        refine ⟨hk.log, fun hc => ?_⟩
        have hj := hk.json hc
        exact { hj with files := fun f hf => hj.files f (List.mem_of_mem_filter hf) }

theorem kept_resEndUpdate (hk : Kept P G b h) : Returns (resEndUpdate P h) (Kept P G b) := by
  unfold resEndUpdate
  have hk₁ : Kept P G b { h.emit .endingUpdate with isUpdateInProgress := false } :=
    (hk.emit .endingUpdate).frame rfl rfl rfl
  refine (kept_forEachResourceUnder (fun h r hk => kept_clearConfigChangingFlag hk r) _ hk₁
    rootPtr).bind fun h₂ hk₂ => ?_
  unfold obsDeleteUnusedBackupFiles
  split
  · exact Sat.foldlM hk₂ fun h₃ path _ hk₃ => kept_deleteIfUnused hk₃ path
  · exact hk₂

/-! ### The services -/

theorem kept_hubGetClientNamespace (hk : Kept P G b h) (session : Nat) :
    Returns (hubGetClientNamespace P h session) fun p => Kept P G b p.1 := by
  unfold hubGetClientNamespace
  split
  · exact hk
  · split
    · exact hk
    · refine (kept_goToEntry hk rootPtr _ true).bind ?_
      rintro ⟨h₁, app⟩ hk₁
      cases app with
      | none => exact id
      | some app =>
        exact (kept_goToEntry hk₁ app _ true).bind fun p hp => hp.frame rfl rfl rfl

theorem kept_ioFindResource (hk : Kept P G b h) (session : Nat) (path : CString) :
    Returns (ioFindResource P h session path) fun p => Kept P G b p.1 := by
  unfold ioFindResource
  refine (kept_hubGetClientNamespace hk session).bind ?_
  rintro ⟨h₁, ns⟩ hk₁
  cases ns with
  | none => exact hk₁
  | some ns =>
    refine Returns.skip fun found => ?_
    cases found with
    | none => exact hk₁
    | some e => exact Returns.skip fun entry => hk₁

theorem kept_ioCreate {get : Hub → EntryRef → Except Fault (Hub × Option EntryRef)}
    (hget : ∀ h ns, Kept P G b h → Returns (get h ns) fun p => Kept P G b p.1)
    (hk : Kept P G b h) (et : EntryType) (session : Nat) (path : CString) (t : DataType)
    (units : CString) :
    Returns (ioCreate P get et h session path t units) fun p => Kept P G b p.1 := by
  unfold ioCreate
  refine (kept_hubGetClientNamespace hk session).bind ?_
  rintro ⟨h₁, ns⟩ hk₁
  cases ns with
  | none => exact id
  | some ns =>
    refine Returns.skip fun found => Returns.skip fun conflict => ?_
    cases conflict with
    | some result => exact hk₁
    | none => exact (hget h₁ ns hk₁).bind fun p hp => hp

/-- A JSON text that a client passes has the property, if the hub takes it for one. -/
def Argument.Gives (P : Platform) (G : CString → Prop) (value : Argument) : Prop :=
  ∀ text, value = .json text → P.jsonIsValid text = true → G (cString text)

theorem Argument.Gives.json {value : Argument} (hv : value.Gives P G)
    (hvalid : isValidArgument P value = true) (env : Environment) (ts : Double) :
    Returns (createFromArgument env ts value) fun s => s.value.Json G := by
  refine json_createFromArgument ts fun text heq => hv text heq ?_
  subst heq
  exact hvalid

theorem kept_ioPush (hP : P.Keeps G) (fuel : Nat) (hk : Kept P G b h) (session : Nat)
    (path : CString) (ts : Double) {value : Argument} (hv : value.Gives P G) :
    Returns (ioPush P fuel h session path ts value) (Kept P G b) := by
  unfold ioPush
  refine (kept_ioFindResource hk session path).bind ?_
  rintro ⟨h₁, found⟩ hk₁
  cases found with
  | none => exact hk₁
  | some e =>
    dsimp only
    split
    · next hvalid =>
      exact (hv.json hvalid _ _).bind fun s hs => kept_resTreePush hP fuel hk₁ e fun _ => hs
    · exact hk₁

theorem kept_ioSetJsonExample (fuel : Nat) (hk : Kept P G b h) (session : Nat) (path : CString)
    {text : CString} (htext : G (cString text)) :
    Returns (ioSetJsonExample P fuel h session path text) (Kept P G b) := by
  unfold ioSetJsonExample
  refine (kept_ioFindResource hk session path).bind ?_
  rintro ⟨h₁, found⟩ hk₁
  cases found with
  | none => exact hk₁
  | some e =>
    refine Returns.skip fun entry => ?_
    split
    · exact hk₁
    · refine Returns.skip fun r => Returns.skip fun x => ?_
      split
      · exact hk₁
      · exact (json_createJson _ htext).bind fun s hs =>
          kept_resSetJsonExample fuel hk₁ r fun _ => hs

theorem kept_ioAddPushHandler (hk : Kept P G b h) (session : Nat) (path : CString)
    (t : DataType) : Returns (ioAddPushHandler P h session path t) (Kept P G b) := by
  unfold ioAddPushHandler
  refine (kept_ioFindResource hk session path).bind ?_
  rintro ⟨h₁, found⟩ hk₁
  cases found with
  | none => exact hk₁
  | some e =>
    refine Returns.skip fun r => ?_
    refine (kept_resAddPushHandler hk₁ r t).bind fun p hp => ?_
    refine Returns.skip fun x => ?_
    split
    · exact kept_handlerCall (hp.emit _) p.2
    · exact hp.emit _

theorem kept_ioMarkOptional (hk : Kept P G b h) (session : Nat) (path : CString) :
    Returns (ioMarkOptional P h session path) (Kept P G b) := by
  unfold ioMarkOptional
  refine (kept_ioFindResource hk session path).bind ?_
  rintro ⟨h₁, found⟩ hk₁
  cases found with
  | none => exact hk₁
  | some e =>
    refine Returns.skip fun entry => ?_
    split
    · exact hk₁
    · exact Returns.skip fun r => kept_resMarkOptional hk₁ r

theorem kept_ioSetDefault (hP : P.Keeps G) (fuel : Nat) (hk : Kept P G b h) (session : Nat)
    (path : CString) {value : Argument} (hv : value.Gives P G) :
    Returns (ioSetDefault P fuel h session path value) (Kept P G b) := by
  unfold ioSetDefault
  refine (kept_ioFindResource hk session path).bind ?_
  rintro ⟨h₁, found⟩ hk₁
  cases found with
  | none => exact hk₁
  | some e =>
    refine Returns.skip fun r => Returns.skip fun x => ?_
    split
    · exact hk₁
    · next hset =>
      have hvalid : isValidArgument P value = true := by
        simp only [not_or, isSettable] at hset
        simp_all
      exact (hv.json hvalid _ _).bind fun s hs => kept_resSetDefault hP fuel hk₁ r fun _ => hs

theorem kept_ioDeleteResource (hk : Kept P G b h) (session : Nat) (path : CString) :
    Returns (ioDeleteResource P h session path) (Kept P G b) := by
  unfold ioDeleteResource
  refine (kept_ioFindResource hk session path).bind ?_
  rintro ⟨h₁, found⟩ hk₁
  cases found with
  | none => exact hk₁
  | some e => exact kept_resTreeDeleteIO hk₁ e

theorem kept_adminPush (hP : P.Keeps G) (fuel : Nat) (hk : Kept P G b h) (path : CString)
    (ts : Double) {value : Argument} (hv : value.Gives P G) :
    Returns (adminPush P fuel h path ts value) (Kept P G b) := by
  unfold adminPush
  refine Returns.skip fun found => ?_
  cases found with
  | none => exact hk
  | some e =>
    dsimp only
    split
    · next hvalid =>
      exact (hv.json hvalid _ _).bind fun s hs => kept_resTreePush hP fuel hk e fun _ => hs
    · exact hk

theorem kept_adminAddPushHandler (hk : Kept P G b h) (path : CString) (t : DataType) :
    Returns (adminAddPushHandler P h path t) (Kept P G b) := by
  unfold adminAddPushHandler
  refine (kept_resTreeGetResource hk rootPtr path).bind ?_
  rintro ⟨h₁, found⟩ hk₁
  cases found with
  | none => exact hk₁
  | some e =>
    refine Returns.skip fun r => ?_
    exact (kept_resAddPushHandler hk₁ r t).bind fun p hp => hp

theorem kept_adminSetSource (fuel : Nat) (hk : Kept P G b h) (destPath srcPath : CString) :
    Returns (adminSetSource P fuel h destPath srcPath) fun p => Kept P G b p.1 := by
  unfold adminSetSource
  refine (kept_resTreeGetResource hk rootPtr destPath).bind ?_
  rintro ⟨h₁, dest⟩ hk₁
  cases dest with
  | none => exact hk₁
  | some dest =>
    refine (kept_resTreeGetResource hk₁ rootPtr srcPath).bind ?_
    rintro ⟨h₂, src⟩ hk₂
    cases src with
    | none => exact hk₂
    | some src => exact kept_resTreeSetSource fuel hk₂ dest (some src)

theorem kept_atResource {act : ResRef → Except Fault Hub} (hk : Kept P G b h)
    (hact : ∀ r, Returns (act r) (Kept P G b)) (found : Option EntryRef) :
    Returns (atResource h found act) (Kept P G b) := by
  unfold atResource
  split
  · exact hk
  · refine Returns.skip fun entry => ?_
    split
    · exact hk
    · exact hact _

theorem kept_adminGetObservation (hP : P.Keeps G) (fuel : Nat) (hk : Kept P G b h)
    (path : CString) : Returns (adminGetObservation P fuel h path) fun p => Kept P G b p.1 := by
  unfold adminGetObservation
  split
  · exact hk
  · refine (kept_goToEntry hk rootPtr _ true).bind ?_
    rintro ⟨h₁, obs⟩ hk₁
    cases obs with
    | none => exact id
    | some obs => exact kept_resTreeGetObservation hP fuel hk₁ obs _

theorem kept_adminDeleteObs (fuel : Nat) (hk : Kept P G b h) (path : CString) :
    Returns (adminDeleteObs P fuel h path) (Kept P G b) := by
  unfold adminDeleteObs
  refine Returns.skip fun obs => ?_
  cases obs with
  | none => exact hk
  | some obs =>
    refine Returns.skip fun found => ?_
    cases found with
    | none => exact hk
    | some e => exact kept_resTreeDeleteObservation fuel hk e

theorem kept_adminSet (hP : P.Keeps G) {set : Hub → ResRef → Except Fault Hub}
    (hset : ∀ h r, Kept P G b h → Returns (set h r) (Kept P G b)) (fuel : Nat)
    (hk : Kept P G b h) (path : CString) :
    Returns (adminSet P set fuel h path) (Kept P G b) := by
  unfold adminSet
  refine (kept_adminGetObservation hP fuel hk path).bind ?_
  rintro ⟨h₁, obs⟩ hk₁
  cases obs with
  | none => exact hk₁
  | some e => exact Returns.skip fun r => hset h₁ r hk₁

theorem kept_adminSetValue {set : Hub → ResRef → DataType → DataSample → Except Fault Hub}
    {value : Argument} (hset : ∀ (h : Hub) r s, Kept P G b h → s.value.Json G →
      Returns (set h r value.type s) (Kept P G b)) (hk : Kept P G b h) (path : CString)
    (hv : value.Gives P G) : Returns (adminSetValue P set h path value) (Kept P G b) := by
  unfold adminSetValue
  split
  · next hsettable =>
    have hvalid : isValidArgument P value = true := by
      simp only [isSettable, Bool.and_eq_true] at hsettable
      exact hsettable.2
    refine (hv.json hvalid _ _).bind fun s hs => ?_
    refine (kept_resTreeGetResource hk rootPtr path).bind ?_
    rintro ⟨h₁, found⟩ hk₁
    cases found with
    | none => exact hk₁
    | some e => exact Returns.skip fun r => hset h₁ r s hk₁ hs
  · exact hk

theorem kept_queryReadBufferJson (hk : Kept P G b h) (path : CString) (startAfter : Double)
    (nonBlocking : Bool) (script : List WriteResult) :
    Returns (queryReadBufferJson P h path startAfter nonBlocking script) (Kept P G b) := by
  unfold queryReadBufferJson
  refine Returns.skip fun found => ?_
  cases found with
  | none => exact hk
  | some e =>
    dsimp only
    split
    · exact hk
    · refine Returns.skip fun r => ?_
      have hk₁ : Kept P G b { h with nextRead := h.nextRead + 1 } := hk.frame rfl rfl rfl
      split
      · exact kept_modifyObs hk₁ r fun _ o ho => json_readBufferJson ho _ _ _
      · exact hk₁.emit _

theorem kept_backupTimerExpired (hk : Kept P G b h) (r : ResRef) :
    Returns (backupTimerExpired P h r) (Kept P G b) := by
  unfold backupTimerExpired
  split
  · split
    · split
      · exact kept_modifyObs hk r fun _ o ho => json_backup ho
      · exact hk
    · exact hk
  · split
    · exact id
    · exact hk

theorem kept_fdEvent (hk : Kept P G b h) (r : ResRef) (id' : Nat) (hangUp : Bool)
    (script : List WriteResult) : Returns (fdEvent P h r id' hangUp script) (Kept P G b) := by
  unfold fdEvent
  split
  · split
    · exact kept_modifyObs hk r fun _ o ho => json_fdEventHandler ho _ _ _
    · exact hk
  · exact hk

/-- The JSON texts that a client passes have the property. -/
def Op.Gives (P : Platform) (G : CString → Prop) : Op → Prop
  | .ioPush _ _ _ value | .ioSetDefault _ _ value | .adminPush _ _ value
  | .adminSetDefault _ value | .adminSetOverride _ value => value.Gives P G
  | .ioSetJsonExample _ _ text => G (cString text)
  | _ => True

theorem kept_step (hP : P.Keeps G) (fuel : Nat) (hk : Kept P G b h) {op : Op}
    (hop : op.Gives P G) : Returns (step P fuel h op) (Kept P G b) := by
  cases op with
  | ioCreateInput session path t units =>
    exact sat_map_iff.mpr (kept_ioCreate
      (fun _ ns hk => kept_getIo (fun _ => .input t units) hk ns path) hk .input session path t
      units)
  | ioCreateOutput session path t units =>
    exact sat_map_iff.mpr (kept_ioCreate
      (fun _ ns hk => kept_getIo (fun _ => .output t units) hk ns path) hk .output session path t
      units)
  | ioDeleteResource session path => exact kept_ioDeleteResource hk session path
  | ioPush session path ts value => exact kept_ioPush hP fuel hk session path ts hop
  | ioSetJsonExample session path text => exact kept_ioSetJsonExample fuel hk session path hop
  | ioAddPushHandler session path t => exact kept_ioAddPushHandler hk session path t
  | ioMarkOptional session path => exact kept_ioMarkOptional hk session path
  | ioSetDefault session path value => exact kept_ioSetDefault hP fuel hk session path hop
  | removePushHandler p => exact kept_handlerRemove hk p
  | adminPush path ts value => exact kept_adminPush hP fuel hk path ts hop
  | adminAddPushHandler path t => exact kept_adminAddPushHandler hk path t
  | adminSetSource dest src => exact sat_map_iff.mpr (kept_adminSetSource fuel hk dest src)
  | adminRemoveSource dest =>
    refine Returns.skip fun found => kept_atResource hk (fun r => ?_) found
    exact (kept_resSetSource fuel hk r none).bind fun _ hp => hp
  | adminCreateObs path =>
    exact sat_map_iff.mpr ((kept_adminGetObservation hP fuel hk path).bind fun p hp => hp)
  | adminDeleteObs path => exact kept_adminDeleteObs fuel hk path
  | adminSetMinPeriod path v =>
    exact kept_adminSet hP (fun _ r hk => kept_resSetMinPeriod hk r v) fuel hk path
  | adminSetHighLimit path v =>
    exact kept_adminSet hP (fun _ r hk => kept_resSetHighLimit hk r v) fuel hk path
  | adminSetLowLimit path v =>
    exact kept_adminSet hP (fun _ r hk => kept_resSetLowLimit hk r v) fuel hk path
  | adminSetChangeBy path v =>
    exact kept_adminSet hP (fun _ r hk => kept_resSetChangeBy hk r v) fuel hk path
  | adminSetTransform path v =>
    exact kept_adminSet hP (fun _ r hk => kept_resSetTransform hk r v) fuel hk path
  | adminSetBufferMaxCount path v =>
    exact kept_adminSet hP (fun _ r hk => kept_resSetBufferMaxCount hk r v) fuel hk path
  | adminSetBufferBackupPeriod path v =>
    exact kept_adminSet hP (fun _ r hk => kept_resSetBufferBackupPeriod hk r v) fuel hk path
  | adminSetJsonExtraction path v =>
    exact kept_adminSet hP (fun _ r hk => kept_resSetJsonExtraction hk r v) fuel hk path
  | adminSetDefault path value =>
    exact kept_adminSetValue (fun _ r _ hk hs => kept_resSetDefault hP fuel hk r fun _ => hs) hk
      path hop
  | adminRemoveDefault path =>
    exact Returns.skip fun found => kept_atResource hk (kept_resRemoveDefault hk) found
  | adminSetOverride path value =>
    exact kept_adminSetValue (fun _ r _ hk hs => kept_resSetOverride hP fuel hk r fun _ => hs) hk
      path hop
  | adminRemoveOverride path =>
    exact Returns.skip fun found => kept_atResource hk (kept_resRemoveOverride hP fuel hk) found
  | startUpdate => exact hk.frame rfl rfl rfl
  | endUpdate => exact kept_resEndUpdate hk
  | queryReadBufferJson path startAfter nonBlocking script =>
    exact kept_queryReadBufferJson hk path startAfter nonBlocking script
  | queryBuffer path query => exact Returns.skip fun _ => hk
  | backupTimerExpired r => exact kept_backupTimerExpired hk r
  | fdEvent r id' hangUp script => exact kept_fdEvent hk r id' hangUp script
  | environment env => exact hk.frame rfl rfl rfl

end MangOH.DataHub
