import MangOH.DataHub.HeldJson

/-! A property of JSON texts, held by all samples in the hub, and the operations that keep it. -/
namespace MangOH.DataHub

open Outcome

variable {P : Platform} {G : CString → Prop} {b h h' : Hub} {r q : ResRef} {x y : Resource}
  {s : DataSample} {t : DataType} {u : CString} {et : EntryType} {e : EntryRef}

/-- All samples that a resource holds have the property. -/
structure Resource.Json (G : CString → Prop) (x : Resource) : Prop where
  current : ∀ s, x.currentValue = some s → s.value.Json G
  pushed : ∀ s, x.pushedValue = some s → s.value.Json G
  override : ∀ s, x.overrideValue = some s → s.value.Json G
  default : ∀ s, x.defaultValue = some s → s.value.Json G
  jsonExample : ∀ s, x.jsonExample = some s → s.value.Json G
  buffered : ∀ o, x.cls = .observation o → o.Json G

/-- All samples in the hub and in the backup files have it. -/
structure Hub.Json (G : CString → Prop) (h : Hub) : Prop where
  resources : ∀ r x, h.resources r = some x → x.Json G
  files : ∀ f ∈ h.files, BackupJson G f.2

/-- A sample that is pushed to a JSON Input or Output becomes a text with the property, and buffers
are backed up as what they hold. -/
def Event.CoercesTo (P : Platform) (G : CString → Prop) : Event → Prop
  | .pushing _ _ x _ _ s => ∀ mandatory, x.cls = .ioPoint .json mandatory → s.value.Coercible P G
  | .obs _ ev => ev.BacksUpOwnType
  | _ => True

/-- All that has happened so far is such. -/
def Hub.Coerces (P : Platform) (G : CString → Prop) (h : Hub) : Prop :=
  ∀ e ∈ h.log, e.CoercesTo P G

/-- A later state, which has the property if all that has happened allows it. -/
structure Kept (P : Platform) (G : CString → Prop) (b h : Hub) : Prop where
  log : b.log ⊆ h.log
  json : h.Coerces P G → h.Json G

theorem Kept.refl (hj : h.Coerces P G → h.Json G) : Kept P G h h := ⟨List.Subset.refl _, hj⟩

theorem Kept.start (hk : Kept P G b h) : Kept P G h h := .refl hk.json

theorem Kept.trans (hk : Kept P G b h) (hk' : Kept P G h h') : Kept P G b h' :=
  ⟨List.Subset.trans hk.log hk'.log, hk'.json⟩

theorem Kept.coerces (hk : Kept P G b h) (hc : h.Coerces P G) : b.Coerces P G :=
  fun e he => hc e (hk.log he)

/-- The samples, the files and the log stay; the rest can change. -/
theorem Kept.frame (hk : Kept P G b h) (hres : h'.resources = h.resources)
    (hfiles : h'.files = h.files) (hlog : h'.log = h.log) : Kept P G b h' := by
  refine ⟨hlog ▸ hk.log, fun hc => ?_⟩
  have hj := hk.json fun e he => hc e (hlog ▸ he)
  exact ⟨fun r x hx => hj.resources r x (hres ▸ hx), fun f hf => hj.files f (hfiles ▸ hf)⟩

theorem Kept.emit (hk : Kept P G b h) (ev : Event) : Kept P G b (h.emit ev) := by
  refine ⟨List.Subset.trans hk.log (List.subset_append_left _ _), fun hc => ?_⟩
  have hj := hk.json fun e he => hc e (List.mem_append_left _ he)
  exact { hj with }

theorem Kept.resource (hk : Kept P G b h) (hx : h.resources r = some x) (hc : h.Coerces P G) :
    x.Json G := (hk.json hc).resources r x hx

theorem Kept.set (hk : Kept P G b h) (r : ResRef) (hy : h.Coerces P G → y.Json G) :
    Kept P G b (h.setResource r y) := by
  refine ⟨hk.log, fun hc => ⟨fun q z hz => ?_, (hk.json hc).files⟩⟩
  by_cases hq : q = r
  · simp only [Hub.setResource, hq, Function.update_self, Option.some.injEq] at hz
    exact hz ▸ hy hc
  · exact (hk.json hc).resources q z ((Function.update_of_ne hq ..).symm.trans hz)

theorem Kept.free (hk : Kept P G b h) (r : ResRef) : Kept P G b (h.freeResource r) := by
  refine ⟨hk.log, fun hc => ⟨fun q z hz => ?_, (hk.json hc).files⟩⟩
  by_cases hq : q = r
  · simp [Hub.freeResource, hq] at hz
  · exact (hk.json hc).resources q z ((Function.update_of_ne hq ..).symm.trans hz)

/-- What an Observation has done to the files. -/
theorem Kept.emitObs (hk : Kept P G b h) (r : ResRef) (evs : List ObsEvent)
    (hevs : h.Coerces P G → (∀ ev ∈ evs, ev.BacksUpOwnType) →
      ∀ path content, .committed path content ∈ evs → BackupJson G content) :
    Kept P G b (h.emitObs r evs) := by
  refine ⟨List.Subset.trans hk.log (List.subset_append_left _ _), fun hc => ?_⟩
  have hbefore : h.Coerces P G := fun e he => hc e (List.mem_append_left _ he)
  have hown : ∀ ev ∈ evs, ev.BacksUpOwnType := fun ev hev =>
    hc (.obs r ev) (List.mem_append_right _ (List.mem_map_of_mem hev))
  have hj := hk.json hbefore
  refine ⟨hj.resources, ?_⟩
  have hall : ∀ (l : List ObsEvent) files, (∀ ev ∈ l, ev ∈ evs) →
      (∀ f ∈ files, BackupJson G f.2) →
      ∀ f ∈ l.foldl Hub.applyFileEvent files, BackupJson G f.2 := by
    intro l
    induction l with
    | nil => exact fun files _ hfiles => hfiles
    | cons ev l ih =>
      intro files hsub hfiles
      refine ih _ (fun ev' hev' => hsub ev' (List.mem_cons_of_mem _ hev')) fun f hf => ?_
      cases ev with
      | committed path content =>
        rcases List.mem_cons.mp hf with rfl | hf
        · exact hevs hbefore hown path content (hsub _ List.mem_cons_self)
        · exact hfiles f (List.mem_of_mem_filter hf)
      | unlinked path => exact hfiles f (List.mem_of_mem_filter hf)
      | _ => exact hfiles f hf
  exact hall evs h.files (fun ev hev => hev) hj.files

/-! ### Resources -/

theorem Resource.Json.setUnits (hx : x.Json G) (u : CString) : (setUnits P x u).Json G :=
  { hx with }

theorem kept_getResource (h : Hub) (r : ResRef) :
    Returns (h.getResource r) fun x => h.resources r = some x := by
  unfold Hub.getResource
  split
  · assumption
  · exact id

theorem kept_modifyResource (hk : Kept P G b h) (r : ResRef) {f : Resource → Resource}
    (hf : ∀ x, x.Json G → (f x).Json G) : Returns (h.modifyResource r f) (Kept P G b) :=
  (kept_getResource h r).bind fun _ hx => hk.set r fun hc => hf _ (hk.resource hx hc)

theorem kept_modifyEntry (hk : Kept P G b h) (e : EntryRef) (f : Entry → Entry) :
    Returns (h.modifyEntry e f) (Kept P G b) :=
  Returns.skip fun _ => hk.frame rfl rfl rfl

/-! ### Pushes -/

/-- What `res_Push` has made of a resource, with the property. -/
structure PushedJson (G : CString → Prop) (p : Pushed) : Prop where
  res : p.res.Json G
  sample : ∀ t s, p.sample = some (t, s) → s.value.Json G
  files : (∀ ev ∈ p.events, ev.BacksUpOwnType) → ∀ path content,
    .committed path content ∈ p.events → BackupJson G content

theorem samples_obsShouldAccept {ctx : ObsContext} {o : Observation} {current : Option DataSample}
    {overridden : Bool} : Returns (obsShouldAccept P ctx o current overridden t s) fun v =>
      ∀ o', v = some o' → o'.samples = o.samples := by
  unfold obsShouldAccept
  refine Returns.skip fun inLimits => ?_
  split
  · simp
  · cases current with
    | none =>
      intro o' heq
      cases heq
      rfl
    | some previous =>
      refine Returns.skip fun changed => ?_
      split
      · simp
      · split
        · simp
        · intro o' heq
          cases heq
          rfl

theorem Resource.Json.observe {o : Observation} (hx : x.Json G) (ho : o.Json G) :
    Resource.Json G { x with cls := .observation o } :=
  { hx with
    buffered := fun o' heq => by
      cases heq
      exact ho }

theorem json_obsAdmit (hP : P.Keeps G) {ctx : ObsContext} {o : Observation} (hx : x.Json G)
    (ho : o.Json G) (hs : s.value.Json G) :
    Returns (obsAdmit P ctx x o t s) (PushedJson G) := by
  unfold obsAdmit
  refine (json_doJsonExtraction hP hs).bind fun extracted he => ?_
  split
  · exact ⟨hx, by simp, by simp⟩
  · next t' s' =>
    have hs' := he t' s' rfl
    refine (json_processAccepted ho hs').bind fun p hp => ?_
    refine (json_applyTransform hs').bind fun s₂ hs₂ => ?_
    refine samples_obsShouldAccept.bind fun verdict hv => ?_
    split
    · exact ⟨hx.observe hp.samples, by simp, hp.files⟩
    · next o₂ =>
      refine ⟨hx.observe (hp.samples.mono ?_), ?_, hp.files⟩
      · exact hv o₂ rfl ▸ List.Subset.refl _
      · rintro t₂ s₃ heq
        cases heq
        exact hs₂

theorem json_admission (hP : P.Keeps G) {ctx : ObsContext} (hx : x.Json G)
    (hs : s.value.Json G) : Returns (admission P ctx et x t s) (PushedJson G) := by
  have hsame : PushedJson G ⟨x, [], some (t, s)⟩ := by
    refine ⟨hx, ?_, by simp⟩
    rintro t' s' heq
    cases heq
    exact hs
  unfold admission
  split
  · split
    · next o hcls => exact json_obsAdmit hP hx (hx.buffered o hcls) hs
    · exact id
  · exact hsame

/-- The sample that is pushed, or else an override of the type of the resource. -/
theorem json_applyOverride (hx : x.Json G) (hs : s.value.Json G) :
    Returns (applyOverride et x t u s) fun a => a.2.2.value.Json G ∧
      (a.2.2.value = s.value ∨ isAcceptable et x a.1 = .ok true) := by
  unfold applyOverride
  refine Sat.bind (Returns.of_ok fun _ heq => heq) fun overridden ho => ?_
  split
  · next value hvalue =>
    have hcopy : Returns (dataSampleCopy x.overrideType value) (· = value) := by
      unfold dataSampleCopy
      split
      · rfl
      · exact id
    refine hcopy.bind fun copy heq => ⟨?_, .inr ?_⟩
    · exact heq ▸ hx.override value hvalue
    · unfold resIsOverridden at ho
      rw [hvalue] at ho
      exact ho
  · exact ⟨hs, .inl rfl⟩

/-- Only a JSON Input or Output coerces a sample to JSON, and only if it is of another type. -/
theorem json_conform (hP : P.Keeps G) {env : Environment} (hx : x.Json G) (hs : s.value.Json G)
    (hc : isAcceptable et x t = .ok true ∨
      ∀ mandatory, x.cls = .ioPoint .json mandatory → s.value.Coercible P G) :
    Returns (conform P env et x t u s) fun c =>
      c.1.Json G ∧ ∀ t' s', c.2 = some (t', s') → s'.value.Json G := by
  have hio : et.isIo = true → Returns (do
      let fixed ← ioPointGetDataType x
      let coerced ← doTypeCoercion P env fixed t s
      pure (x, some (fixed, coerced))) fun c =>
      c.1.Json G ∧ ∀ t' s', c.2 = some (t', s') → s'.value.Json G := by
    intro hio
    refine Sat.bind (Returns.of_ok fun _ heq => heq) fun fixed hfixed => ?_
    have hcoerced : Returns (doTypeCoercion P env fixed t s) fun s' => s'.value.Json G := by
      rcases hc with hacc | hc
      · have htype : t = fixed := by
          unfold isAcceptable at hacc
          rw [if_pos hio, hfixed] at hacc
          exact of_decide_eq_true (Except.ok.inj hacc)
        rw [htype, doTypeCoercion, if_pos rfl]
        exact hs
      · refine json_doTypeCoercion hP hs ?_
        rintro rfl
        unfold ioPointGetDataType at hfixed
        split at hfixed
        · next fixed mandatory hcls =>
          cases hfixed
          exact hc mandatory hcls
        · cases hfixed
    refine hcoerced.bind fun s' hs' => ⟨hx, ?_⟩
    rintro t' s₁ heq
    cases heq
    exact hs'
  have hplain : Returns (pure (if u = [] then x else setUnits P x u, some (t, s)) :
      Except Fault (Resource × Option (DataType × DataSample))) fun c =>
      c.1.Json G ∧ ∀ t' s', c.2 = some (t', s') → s'.value.Json G := by
    refine ⟨?_, ?_⟩
    · dsimp only
      split
      · exact hx
      · exact hx.setUnits u
    · rintro t' s' heq
      cases heq
      exact hs
  unfold conform
  cases et with
  | nameSpace => exact id
  | observation => exact hplain
  | placeholder => exact hplain
  | _ =>
    dsimp only
    split
    · exact ⟨hx, by simp⟩
    · exact hio rfl

theorem cls_obsAdmit {ctx : ObsContext} {o : Observation} (hcls : x.cls = .observation o) :
    Returns (obsAdmit P ctx x o t s) fun p => ∃ o', p.res.cls = .observation o' := by
  unfold obsAdmit
  refine Returns.skip fun extracted => ?_
  split
  · exact ⟨o, hcls⟩
  · refine Returns.skip fun p => Returns.skip fun s₂ => Returns.skip fun verdict => ?_
    split
    · exact ⟨_, rfl⟩
    · exact ⟨_, rfl⟩

/-- An Input or Output admits every sample as it is. -/
theorem cls_admission {ctx : ObsContext} {p : Pushed} (h : admission P ctx et x t s = .ok p)
    {ty : DataType} {mandatory : Bool} (hio : p.res.cls = .ioPoint ty mandatory) :
    p.res.cls = x.cls ∧ ∀ t' s', p.sample = some (t', s') → s'.value = s.value := by
  unfold admission at h
  split at h
  · split at h
    · next o hcls =>
      obtain ⟨o', hobs⟩ := (cls_obsAdmit hcls).result h
      cases hobs.symm.trans hio
    · cases h
  · cases h
    refine ⟨rfl, ?_⟩
    rintro t' s' heq
    cases heq
    rfl

theorem json_resPushLocal (hP : P.Keeps G) {ctx : ObsContext} (hx : x.Json G)
    (hs : s.value.Json G)
    (hc : ∀ mandatory, x.cls = .ioPoint .json mandatory → s.value.Coercible P G) :
    Returns (resPushLocal P ctx et x t u s) (PushedJson G) := by
  unfold resPushLocal
  refine (json_admission hP hx (s := { s with via := u }) hs).and_result.bind ?_
  rintro admitted ⟨ha, hadmitted⟩
  split
  · exact ha
  · next t₁ s₁ hsome =>
    have hs₁ := ha.sample t₁ s₁ hsome
    have hpushed : Resource.Json G { admitted.res with
        pushedValue := some { s₁ with hops := s₁.hops + 1 }, pushedType := t₁ } :=
      { ha.res with
        pushed := fun s' heq => by
          cases heq
          exact hs₁ }
    dsimp only
    split
    · exact ⟨hpushed, by simp, ha.files⟩
    · refine (json_applyOverride hpushed (s := { s₁ with hops := s₁.hops + 1 }) hs₁).bind ?_
      rintro ⟨t₂, u₂, s₂⟩ ⟨hs₂, hwhich⟩
      have hcoerces : isAcceptable et { admitted.res with
          pushedValue := some { s₁ with hops := s₁.hops + 1 }, pushedType := t₁ } t₂ = .ok true ∨
          ∀ mandatory, admitted.res.cls = .ioPoint .json mandatory → s₂.value.Coercible P G := by
        rcases hwhich with hsame | hacc
        · refine .inr fun mandatory hcls => ?_
          obtain ⟨hx', hs'⟩ := cls_admission hadmitted hcls
          rw [hsame]
          show s₁.value.Coercible P G
          rw [hs' t₁ s₁ hsome]
          exact hc mandatory (hx' ▸ hcls)
        · exact .inl hacc
      refine (json_conform hP hpushed hs₂ hcoerces).bind fun c hc => ?_
      exact ⟨hc.1, hc.2, ha.files⟩

theorem kept_handlerCall (hk : Kept P G b h) (p : HandlerRef) :
    Returns (handlerCall P h p t s) (Kept P G b) := by
  unfold handlerCall
  split
  · exact id
  · refine Returns.skip fun call => ?_
    split
    · exact hk.emit _
    · exact hk

theorem kept_handlerCallAll (hk : Kept P G b h) (list : List HandlerRef) :
    Returns (handlerCallAll P h list t s) (Kept P G b) :=
  Sat.foldlM hk fun _ p _ hk => kept_handlerCall hk p

theorem Resource.Json.install (hx : x.Json G) (t : DataType) (hs : s.value.Json G) :
    (x.install t s).Json G :=
  { hx with
    current := fun s' heq => by
      cases heq
      exact hs
    jsonExample := fun s' heq => by
      unfold Resource.install at heq
      dsimp only at heq
      split at heq
      · rcases Option.or_eq_some_iff.mp heq with heq | ⟨_, heq⟩
        · exact hx.jsonExample s' heq
        · cases heq
          exact hs
      · cases heq }

/-- Pushes that keep the property: the sample has it if all so far allows it. -/
def PushKeeps (P : Platform) (G : CString → Prop)
    (push : Hub → ResRef → DataType → CString → DataSample → Except Fault Hub) : Prop :=
  ∀ {b h : Hub} (r : ResRef) (t : DataType) (u : CString) {s : DataSample}, Kept P G b h →
    (h.Coerces P G → s.value.Json G) → Returns (push h r t u s) (Kept P G b)

theorem kept_updateCurrentValue
    {push : Hub → ResRef → DataType → CString → DataSample → Except Fault Hub}
    (hpush : PushKeeps P G push) (hk : Kept P G b h) (r : ResRef)
    (hs : h.Coerces P G → s.value.Json G) :
    Returns (updateCurrentValue P push h r t s) (Kept P G b) := by
  unfold updateCurrentValue
  refine (kept_getResource h r).bind fun x hx => ?_
  refine Returns.skip fun et => Returns.skip fun acceptable => ?_
  split
  · exact hk
  · have hset : Kept P G b ((h.setResource r (x.install t s)).emit
        (.accepting r et x.pushHandlerList s)) :=
      (hk.set r fun hc => (hk.resource hx hc).install t (hs hc)).emit _
    refine Sat.bind (Q := Kept P G ((h.setResource r (x.install t s)).emit
      (.accepting r et x.pushHandlerList s))) ?_ fun h₁ hk₁ => ?_
    · refine Sat.foldlM hset.start fun h₁ dest _ hk₁ => ?_
      refine hpush dest t x.units hk₁ fun hc => hs fun e he => ?_
      exact hk₁.coerces hc e (List.mem_append_left _ he)
    · exact kept_handlerCallAll ((hset.trans hk₁).emit _) _

theorem kept_resPush (hP : P.Keeps G) (fuel : Nat) : PushKeeps P G (resPush P fuel) := by
  induction fuel with
  | zero =>
    intro b h r t u s hk hs
    exact id
  | succ fuel ih =>
    intro b h r t u s hk hs
    unfold resPush
    refine (kept_getResource h r).bind fun x hx => ?_
    refine Returns.skip fun et => ?_
    refine Sat.bind (Returns.of_ok fun _ heq => heq) fun p hp => ?_
    -- what is known of the result once the event of the push allows it
    have hjson : ((h.emit (.receiving r et s)).emit (.pushing r (obsContext h x) x t u s)).Coerces
        P G → PushedJson G p := by
      intro hc
      have hbefore : h.Coerces P G := fun e he =>
        hc e (List.mem_append_left _ (List.mem_append_left _ he))
      have hevent := hc (.pushing r (obsContext h x) x t u s) (by simp [Hub.emit])
      exact (json_resPushLocal hP (hk.resource hx hbefore) (hs hbefore) hevent).result hp
    have hobs := ((hk.emit (.receiving r et s)).emit (.pushing r (obsContext h x) x t u s)).emitObs
      r p.events fun hc => (hjson hc).files
    have hearlier : (((h.emit (.receiving r et s)).emit
        (.pushing r (obsContext h x) x t u s)).emitObs r p.events).Coerces P G → PushedJson G p :=
      fun hc => hjson fun e he => hc e (List.mem_append_left _ he)
    have hset := hobs.set r (y := p.res) fun hc => (hearlier hc).res
    split
    · exact hset
    · next t' s' hsome =>
      exact kept_updateCurrentValue ih hset r fun hc => (hearlier hc).sample t' s' hsome

/-! ### Routes -/

theorem kept_resSetJsonExample (fuel : Nat) (hk : Kept P G b h) (r : ResRef)
    (hs : h.Coerces P G → s.value.Json G) :
    Returns (resSetJsonExample fuel h r s) (Kept P G b) := by
  induction fuel generalizing b h r with
  | zero =>
    unfold resSetJsonExample
    exact id
  | succ fuel ih =>
    unfold resSetJsonExample
    refine (kept_getResource h r).bind fun x hx => ?_
    have hset : Kept P G b (h.setResource r { x with jsonExample := some s }) :=
      hk.set r fun hc => { hk.resource hx hc with
        jsonExample := fun s' heq => by
          cases heq
          exact hs hc }
    have hdests : Returns (x.destList.foldlM
        (fun h dest => resSetJsonExample.passOn fuel h dest s)
        (h.setResource r { x with jsonExample := some s }))
        (Kept P G (h.setResource r { x with jsonExample := some s })) := by
      refine Sat.foldlM hset.start fun h₁ dest _ hk₁ => ?_
      unfold resSetJsonExample.passOn
      refine Returns.skip fun d => Returns.skip fun et => Returns.skip fun acceptable => ?_
      split
      · exact ih hk₁ dest fun hc => hs (hk₁.coerces hc)
      · exact hk₁
    exact hdests.mono fun _ hk₁ => hset.trans hk₁

theorem kept_passOn (fuel : Nat) (hk : Kept P G b h) (dest : ResRef)
    (hs : h.Coerces P G → s.value.Json G) :
    Returns (resSetJsonExample.passOn fuel h dest s) (Kept P G b) := by
  unfold resSetJsonExample.passOn
  refine Returns.skip fun d => Returns.skip fun et => Returns.skip fun acceptable => ?_
  split
  · exact kept_resSetJsonExample fuel hk dest hs
  · exact hk

theorem kept_unlinkSource (hk : Kept P G b h) (dest : ResRef) :
    Returns (unlinkSource h dest) (Kept P G b) := by
  unfold unlinkSource
  refine Returns.skip fun d => ?_
  split
  · exact hk
  · refine Sat.bind (kept_modifyResource hk _ fun x hx => { hx with }) fun h₁ hk₁ => ?_
    exact kept_modifyResource hk₁ _ fun x hx => { hx with }

theorem kept_linkSource (hk : Kept P G b h) (dest src : ResRef) :
    Returns (linkSource h dest src) (Kept P G b) := by
  unfold linkSource
  refine Sat.bind (kept_modifyResource hk _ fun x hx => { hx with }) fun h₁ hk₁ => ?_
  exact kept_modifyResource hk₁ _ fun x hx => { hx with }

theorem kept_propagateExample (fuel : Nat) (hk : Kept P G b h) (dest src : ResRef) :
    Returns (propagateExample fuel h dest src) (Kept P G b) := by
  unfold propagateExample
  refine (kept_getResource h src).bind fun x hx => ?_
  split
  · exact hk
  · next s hs => exact kept_passOn fuel hk dest fun hc => (hk.resource hx hc).jsonExample s hs

theorem kept_flagConfigChange (hk : Kept P G b h) (r : ResRef) (setting : Setting) :
    Returns (flagConfigChange h r setting) (Kept P G b) := by
  refine kept_modifyResource (hk.emit _) r fun x hx => ?_
  split
  · exact { hx with }
  · exact hx

theorem kept_clearUnits (hk : Kept P G b h) (dest : ResRef) :
    Returns (clearUnits P h dest) (Kept P G b) := by
  unfold clearUnits
  refine (kept_getResource h dest).bind fun d hd => Returns.skip fun et => ?_
  split
  · exact hk.set dest fun hc => (hk.resource hd hc).setUnits []
  · exact hk

theorem kept_resSetSource (fuel : Nat) (hk : Kept P G b h) (dest : ResRef) (src : Option ResRef) :
    Returns (resSetSource P fuel h dest src) fun p => Kept P G b p.1 := by
  unfold resSetSource
  refine Returns.skip fun d => ?_
  split
  · exact hk
  · refine (kept_unlinkSource hk dest).bind fun h₁ hk₁ => ?_
    cases src with
    | none => exact (kept_clearUnits hk₁ dest).bind fun h₂ hk₂ => hk₂.emit _
    | some src =>
      have hk₁ := hk₁.emit (.routing dest src)
      refine Returns.skip fun loop => ?_
      split
      · show Kept P G b (if d.srcPtr.isSome then _ else _)
        split
        · exact hk₁.emit _
        · exact hk₁
      · refine (kept_linkSource hk₁ dest src).bind fun h₂ hk₂ => ?_
        refine (kept_propagateExample fuel hk₂ dest src).bind fun h₃ hk₃ => ?_
        refine (kept_flagConfigChange hk₃ src .route).bind fun h₄ hk₄ => ?_
        exact (kept_flagConfigChange hk₄ dest .route).bind fun h₅ hk₅ => hk₅

end MangOH.DataHub
