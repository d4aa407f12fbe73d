import MangOH.DataHub.RoundTrip

/-! A property of JSON texts, held by the samples of a buffer and of a backup file, and what the
functions that handle samples do to it. -/
namespace MangOH.DataHub

open Outcome Codec

variable {P : Platform} {G : CString → Prop} {env : Environment} {ctx : ObsContext}
  {o o' : Observation} {s s' : DataSample} {v : Value} {t toType : DataType} {B : Fault → Prop}
  {l : List DataSample} {bytes rest : Bytes} {evs : List ObsEvent}

/-- If the value is a JSON text, it has the property. -/
def Value.Json (G : CString → Prop) (v : Value) : Prop := ∀ text, v = .json text → G text.bytes

/-- What becomes of a value that is coerced to JSON has the property. -/
def Value.Coercible (P : Platform) (G : CString → Prop) : Value → Prop
  | .numeric d => G (cString (formatNumeric P d))
  | .string text => G (cString (quoteString P text.bytes))
  | _ => True

/-- The property holds of what the hub makes of JSON texts that have it. -/
structure Platform.Keeps (P : Platform) (G : CString → Prop) : Prop where
  null : G (ascii "null")
  boolean : ∀ b : Bool, G (ascii (if b then "true" else "false"))
  extract : ∀ json spec kind result, G json → P.jsonExtract json spec = some (kind, result) →
    kind = .object ∨ kind = .array → G (cString result)

/-- All samples in the buffer have it. -/
def Observation.Json (G : CString → Prop) (o : Observation) : Prop :=
  ∀ s ∈ o.samples, s.value.Json G

/-- Whatever is restored from the file has it. -/
def BackupJson (G : CString → Prop) (content : Bytes) : Prop :=
  ∀ env o, o.Json G → Returns (obsRestoreContent env o content) fun p =>
    p.1.Json G ∧ (∀ s, p.2.2 = some s → s.value.Json G) ∧
      ∀ path content, .committed path content ∉ p.2.1

/-- A buffer is backed up only while its samples are of its resource's current type. -/
def ObsEvent.BacksUpOwnType : ObsEvent → Prop
  | .backingUp currentType bufferedType samples => samples = [] ∨ currentType = bufferedType
  | _ => True

/-- An Observation and the files that it has written, with the property. -/
structure ObsJson (G : CString → Prop) (p : Observation × List ObsEvent) : Prop where
  samples : p.1.Json G
  files : (∀ ev ∈ p.2, ev.BacksUpOwnType) → ∀ path content,
    .committed path content ∈ p.2 → BackupJson G content

theorem json_trigger : Value.Json G .trigger := by
  intro text heq
  cases heq

theorem json_boolean (b : Bool) : Value.Json G (.boolean b) := by
  intro text heq
  cases heq

theorem json_numeric (d : Double) : Value.Json G (.numeric d) := by
  intro text heq
  cases heq

theorem json_string (text : Text) : Value.Json G (.string text) := by
  intro text heq
  cases heq

/-! ### Samples -/

theorem json_createString (ts : Double) (b : Bytes) :
    Returns (dataSampleCreateString env ts b) fun s => s.value.Json G :=
  Returns.skip fun text => json_string text

theorem json_createJson (ts : Double) {b : Bytes} (hb : G (cString b)) :
    Returns (dataSampleCreateJson env ts b) fun s => s.value.Json G := by
  unfold dataSampleCreateJson textOf
  split
  · intro text heq
    cases heq
    exact hb
  · exact id

theorem json_createFromArgument (ts : Double) {a : Argument}
    (ha : ∀ value, a = .json value → G (cString value)) :
    Returns (createFromArgument env ts a) fun s => s.value.Json G := by
  cases a with
  | trigger => exact json_trigger
  | boolean b => exact json_boolean b
  | numeric d => exact json_numeric d
  | string value => exact json_createString ts value
  | json value => exact json_createJson ts (ha value rfl)

theorem getJson_of_json (hs : s.value.Json G) :
    Returns (dataSampleGetJson s) fun json => G json := by
  obtain ⟨ts, v, u⟩ := s
  cases v with
  | json text => exact hs text rfl
  | _ => exact id

theorem json_extractJson (hP : P.Keeps G) (hs : s.value.Json G) (spec : CString) :
    Returns (dataSampleExtractJson P env s spec) fun e =>
      ∀ t s', e = some (t, s') → s'.value.Json G := by
  refine (getJson_of_json hs).bind fun json hjson => ?_
  have hsome : ∀ {x : Except Fault DataSample} (t₁ : DataType),
      Returns x (fun s => s.value.Json G) →
      Returns (x >>= fun extracted => pure (some (t₁, extracted))) fun e =>
        ∀ t s', e = some (t, s') → s'.value.Json G := by
    intro x t₁ hx
    refine hx.bind fun s₁ hs₁ t s' heq => ?_
    cases heq
    exact hs₁
  split
  · simp
  · exact fun _ _ heq => by cases heq; exact json_trigger
  · exact fun _ _ heq => by cases heq; exact json_boolean _
  · exact fun _ _ heq => by cases heq; exact json_numeric _
  · exact hsome _ (json_createString _ _)
  · next result hex => exact hsome _ (json_createJson _ (hP.extract _ _ _ _ hjson hex (.inl rfl)))
  · next result hex => exact hsome _ (json_createJson _ (hP.extract _ _ _ _ hjson hex (.inr rfl)))

theorem cString_ascii_null : cString (ascii "null") = ascii "null" := by decide

theorem cString_ascii_boolean (b : Bool) :
    cString (ascii (if b then "true" else "false")) = ascii (if b then "true" else "false") := by
  cases b <;> decide

/-- A coercion to JSON is the only one that makes a JSON text, and it makes it of the value. -/
theorem json_coercedSample (hP : P.Keeps G) (hs : s.value.Json G)
    (hcoerces : toType = .json → s.value.Coercible P G) :
    Returns (coercedSample P env toType t s) fun s' => s'.value.Json G := by
  cases toType with
  | trigger => exact json_trigger
  | boolean =>
    cases t with
    | trigger => exact json_boolean _
    | boolean => exact hs
    | _ => exact Returns.skip fun _ => json_boolean _
  | numeric =>
    cases t with
    | trigger => exact json_numeric _
    | numeric => exact hs
    | _ => exact Returns.skip fun _ => json_numeric _
  | string =>
    cases t with
    | trigger => exact json_createString _ _
    | string => exact hs
    | _ => exact Returns.skip fun _ => json_createString _ _
  | json =>
    have hc := hcoerces rfl
    obtain ⟨ts, v, u⟩ := s
    cases t with
    | trigger => exact json_createJson _ (by rw [cString_ascii_null]; exact hP.null)
    | boolean =>
      refine Returns.skip fun b => json_createJson _ ?_
      rw [cString_ascii_boolean]
      exact hP.boolean b
    | numeric =>
      cases v with
      | numeric d => exact json_createJson _ hc
      | _ => exact id
    | string =>
      cases v with
      | string text => exact json_createJson _ hc
      | _ => exact id
    | json => exact hs

theorem json_doTypeCoercion (hP : P.Keeps G) (hs : s.value.Json G)
    (hcoerces : toType = .json → s.value.Coercible P G) :
    Returns (doTypeCoercion P env toType t s) fun s' => s'.value.Json G := by
  unfold doTypeCoercion
  split
  · exact hs
  · exact (json_coercedSample hP hs hcoerces).bind fun _ h => h

theorem json_updateSample (hs : s.value.Json G) (result : Double) :
    Returns (updateSample env s t result) fun s' => s'.value.Json G := by
  unfold updateSample
  split
  · refine Returns.skip fun old => ?_
    simp only [sat_pure]
    split
    · exact hs
    · exact json_boolean _
  · refine Returns.skip fun old => ?_
    simp only [sat_pure]
    split
    · exact hs
    · exact json_numeric _
  · exact hs

theorem json_applyTransform (hs : s.value.Json G) :
    Returns (obsApplyTransform P env o t s) fun s' => s'.value.Json G := by
  unfold obsApplyTransform
  split
  · exact hs
  all_goals exact Returns.skip fun result => json_updateSample hs result

theorem json_doJsonExtraction (hP : P.Keeps G) (hs : s.value.Json G) :
    Returns (obsDoJsonExtraction P env o t s) fun e =>
      ∀ t' s', e = some (t', s') → s'.value.Json G := by
  unfold obsDoJsonExtraction
  split
  · rintro t' s' heq
    cases heq
    exact hs
  · split
    · simp
    · refine (json_extractJson hP hs _).bind fun extracted he t' s' heq => ?_
      obtain ⟨⟨t₁, s₁⟩, hex, heq⟩ := Option.map_eq_some_iff.mp heq
      cases heq
      exact he t₁ s₁ hex

/-! ### Buffers -/

theorem Observation.Json.mono (h : o.Json G) (hsub : o'.samples ⊆ o.samples) : o'.Json G :=
  fun s hs => h s (hsub hs)

theorem json_addToBuffer (h : o.Json G) (hs : s.value.Json G) : (addToBuffer o s).Json G := by
  rcases addToBuffer_cases o s with ⟨heq, _⟩ | heq
  · rw [heq]
    exact h
  · rw [heq]
    intro s' hs'
    simp only [addToBuffer.queue, Observation.samples, List.map_append, List.map_cons, List.map_nil,
      List.mem_append, List.mem_singleton] at hs'
    rcases hs' with hs' | rfl
    · exact h s' hs'
    · exact hs

/-- No file is written. -/
def Unsaved (evs : List ObsEvent) : Prop := ∀ path content, .committed path content ∉ evs

theorem unsaved_nil : Unsaved [] := fun _ _ => List.not_mem_nil

theorem Unsaved.append {evs' : List ObsEvent} (h : Unsaved evs) (h' : Unsaved evs') :
    Unsaved (evs ++ evs') := by
  intro path content hmem
  rcases List.mem_append.mp hmem with hmem | hmem
  · exact h path content hmem
  · exact h' path content hmem

theorem ObsJson.of_unsaved (h : o.Json G) (hevs : Unsaved evs) : ObsJson G (o, evs) :=
  ⟨h, fun _ path content hmem => absurd hmem (hevs path content)⟩

theorem unsaved_truncateLoop (k : Nat) (o : Observation) :
    Returns (truncateLoop k o) fun p => p.1.samples ⊆ o.samples ∧ Unsaved p.2 := by
  induction k generalizing o with
  | zero => exact ⟨List.Subset.refl _, unsaved_nil⟩
  | succ k ih =>
    unfold truncateLoop popOldest
    cases hlist : o.sampleList with
    | nil => exact id
    | cons e l =>
      refine (ih _).bind fun p hp => ⟨?_, ?_⟩
      · refine List.Subset.trans hp.1 fun s hs => ?_
        show s ∈ o.sampleList.map (·.sampleRef)
        rw [hlist]
        exact List.mem_cons_of_mem _ hs
      · intro path content hmem
        rcases List.mem_cons.mp hmem with heq | hmem
        · cases heq
        · exact hp.2 path content hmem

theorem unsaved_truncateBuffer (o : Observation) (n : Nat) :
    Returns (truncateBuffer o n) fun p => p.1.samples ⊆ o.samples ∧ Unsaved p.2 :=
  unsaved_truncateLoop _ o

/-! ### Backup files -/

/-- What is read back of a value has the property if the value has. -/
theorem json_readValue {value : Bytes} (timestamp : Double)
    (hwrite : writeValue t s = .ok (some value)) :
    Returns (readValue env t timestamp (value ++ rest)) fun p =>
      ∃ s', p = some (s', rest) ∧ (s.value.Json G → s'.value.Json G) := by
  obtain ⟨ts, v, u⟩ := s
  have htext : ∀ text : Text, (writeToStream text.bytes).map (encodeLe 4 text.bytes.length ++ ·) =
      some value → value = encodeLe 4 text.bytes.length ++ text.bytes := by
    intro text heq
    obtain ⟨_, hstream, rfl⟩ := Option.map_eq_some_iff.mp heq
    unfold writeToStream at hstream
    split at hstream
    · cases hstream
    · rw [← Option.some.inj hstream]
  cases t with
  | trigger =>
    cases hwrite
    exact ⟨_, rfl, fun _ => json_trigger⟩
  | boolean =>
    cases v with
    | boolean b =>
      cases hwrite
      have htake : takeBytes 1 ([if b then 1 else 0] ++ rest) = some ([if b then 1 else 0], rest) :=
        takeBytes_append rfl
      rw [readValue, htake]
      exact ⟨_, rfl, fun _ => json_boolean _⟩
    | _ => cases hwrite
  | numeric =>
    cases v with
    | numeric d =>
      unfold writeValue writeToStream at hwrite
      simp only [dataSampleGetNumeric, ok_bind] at hwrite
      split at hwrite
      · cases hwrite
      · cases hwrite
        rw [readValue, takeBytes_encodeLe]
        exact ⟨_, rfl, fun _ => json_numeric _⟩
    | _ => cases hwrite
  | string =>
    cases v with
    | string text =>
      rw [htext text (Except.ok.inj hwrite), readValue, readText_eq (s := createSample env timestamp
        (.string text)) text (by rw [dataSampleCreateString, textOf_bytes]; rfl)]
      exact ⟨_, rfl, fun _ => json_string text⟩
    | _ => cases hwrite
  | json =>
    cases v with
    | json text =>
      rw [htext text (Except.ok.inj hwrite), readValue, readText_eq (s := createSample env timestamp
        (.json text)) text (by rw [dataSampleCreateJson, textOf_bytes]; rfl)]
      exact ⟨_, rfl, id⟩
    | _ => cases hwrite

/-- Where the next sample is read from what was written for some samples. -/
theorem json_readNext (hwrite : writeSamplesToFile t l = .ok (some bytes))
    (hl : ∀ s ∈ l, s.value.Json G) {Q : Observation × Option DataSample → Prop}
    (hfail : Q (o, none))
    {next : DataSample → Bytes → Except Fault (Observation × Option DataSample)}
    (hnext : ∀ s l' rest, s.value.Json G → writeSamplesToFile t l' = .ok (some rest) →
      (∀ s ∈ l', s.value.Json G) → Returns (next s rest) Q) :
    Returns (readSamples.readNext env t o bytes next) Q := by
  cases l with
  | nil =>
    cases hwrite
    exact hfail
  | cons s l =>
    obtain ⟨value, hvalue, hwrite⟩ := bind_eq_ok.mp hwrite
    cases value with
    | none => cases hwrite
    | some value =>
      obtain ⟨others, hothers, hwrite⟩ := bind_eq_ok.mp hwrite
      obtain ⟨rest, rfl, rfl⟩ := Option.map_eq_some_iff.mp (Except.ok.inj hwrite)
      unfold readSamples.readNext
      rw [takeBytes_encodeLe]
      refine (json_readValue (G := G) _ hvalue).bind ?_
      rintro _ ⟨s', rfl, hs'⟩
      exact hnext s' l rest (hs' (hl s List.mem_cons_self)) hothers
        fun s hs => hl s (List.mem_cons_of_mem _ hs)

theorem json_readSamples (n : Nat) (ho : o.Json G) (hs : s.value.Json G)
    (hwrite : writeSamplesToFile t l = .ok (some bytes)) (hl : ∀ s ∈ l, s.value.Json G) :
    Returns (readSamples env t n o s bytes) fun p =>
      p.1.Json G ∧ ∀ s', p.2 = some s' → s'.value.Json G := by
  induction n generalizing o s l bytes with
  | zero =>
    refine ⟨ho, fun s' heq => ?_⟩
    dsimp only at heq
    split at heq
    · cases heq
      exact hs
    · cases heq
  | succ n ih =>
    have hadded := json_addToBuffer ho hs
    exact json_readNext hwrite hl ⟨hadded, by simp⟩
      fun s' l' rest hs' hwrite' hl' => ih hadded hs' hwrite' hl'

theorem json_readSamplesFromFile (count : Nat) (ho : o.Json G)
    (hwrite : writeSamplesToFile o.bufferedType l = .ok (some bytes))
    (hl : ∀ s ∈ l, s.value.Json G) :
    Returns (readSamplesFromFile env o bytes count) fun p =>
      p.1.Json G ∧ (∀ s, p.2.2 = some s → s.value.Json G) ∧ Unsaved p.2.1 := by
  unfold readSamplesFromFile
  split
  · exact ⟨ho, by simp, unsaved_nil⟩
  · next n =>
    have hread : Returns (readSamples.readNext env o.bufferedType o bytes
        (readSamples env o.bufferedType n o)) fun p =>
        p.1.Json G ∧ ∀ s', p.2 = some s' → s'.value.Json G :=
      json_readNext hwrite hl ⟨ho, by simp⟩
        fun s' l' rest hs' hwrite' hl' => json_readSamples n ho hs' hwrite' hl'
    refine hread.bind fun p hp => ?_
    split
    · next newest heq =>
      refine ⟨hp.1, fun s hs => ?_, unsaved_nil⟩
      cases hs
      exact hp.2 _ heq
    · exact (unsaved_truncateBuffer p.1 0).bind fun q hq => ⟨hp.1.mono hq.1, by simp, hq.2⟩

/-- A backup that is written at the type of the buffer is read back as what was written. -/
theorem backupJson_content (ho : o.Json G) {content : Bytes}
    (hcontent : backupContent o.bufferedType o = .ok (some content)) : BackupJson G content := by
  intro env o' ho'
  obtain ⟨samples, hwrite, hcontent⟩ := bind_eq_ok.mp hcontent
  obtain ⟨bytes, rfl, rfl⟩ := Option.map_eq_some_iff.mp (Except.ok.inj hcontent)
  simp only [obsRestoreContent, getDataTypeFromCode_getDataTypeCode, takeBytes_encodeLe]
  refine json_readSamplesFromFile _ ?_ hwrite ho
  exact ho'

/-- A file without samples has nothing to restore. -/
theorem backupJson_empty (hempty : o.samples = []) {currentType : DataType} {content : Bytes}
    (hcontent : backupContent currentType o = .ok (some content)) : BackupJson G content := by
  intro env o' ho'
  rw [backupContent, hempty] at hcontent
  cases hcontent
  simp only [obsRestoreContent, getDataTypeFromCode_getDataTypeCode, takeBytes_encodeLe]
  refine json_readSamplesFromFile (l := []) _ ?_ rfl (by simp)
  exact ho'

/-! ### The functions of `obs.c` -/

theorem json_backup (ho : o.Json G) : Returns (backup P ctx o) (ObsJson G) := by
  have hstart : ∀ o' : Observation, o'.samples = o.samples →
      ObsJson G (o', [.backingUp ctx.currentType o.bufferedType o.samples]) := by
    intro o' heq
    refine .of_unsaved (ho.mono (by rw [heq]; exact List.Subset.refl _)) ?_
    intro path content hmem
    cases List.mem_singleton.mp hmem
  unfold backup
  dsimp only
  split
  · exact hstart _ rfl
  · split
    · exact hstart _ rfl
    · refine Sat.bind (Returns.of_ok fun _ heq => heq) fun content hcontent => ?_
      cases content with
      | none => exact hstart _ rfl
      | some content =>
        refine ⟨ho, fun hown path' content' hmem => ?_⟩
        have hlast : content' = content := by
          rcases List.mem_cons.mp hmem with heq | hmem
          · cases heq
          · cases List.mem_singleton.mp hmem
            rfl
        subst hlast
        rcases hown _ List.mem_cons_self with hempty | htype
        · exact backupJson_empty hempty hcontent
        · rw [htype] at hcontent
          exact backupJson_content ho hcontent

theorem unsaved_deleteBackup : Unsaved (deleteBackup P ctx) := by
  intro path content hmem
  unfold deleteBackup at hmem
  split at hmem
  · split at hmem
    · cases List.mem_singleton.mp hmem
    · cases hmem
  · cases hmem

theorem ObsJson.before {old : List ObsEvent} (h : ObsJson G (o, evs)) (hold : Unsaved old) :
    ObsJson G (o, old ++ evs) := by
  refine ⟨h.samples, fun hown path content hmem => ?_⟩
  rcases List.mem_append.mp hmem with hmem | hmem
  · exact absurd hmem (hold path content)
  · exact h.files (fun ev hev => hown ev (List.mem_append_right _ hev)) path content hmem

theorem json_processAccepted (ho : o.Json G) (hs : s.value.Json G) :
    Returns (obsProcessAccepted P ctx o t s) (ObsJson G) := by
  have hretype : Returns (obsProcessAccepted.retype t o) fun p =>
      p.1.samples ⊆ o.samples ∧ Unsaved p.2 := by
    unfold obsProcessAccepted.retype
    split
    · exact ⟨List.Subset.refl _, unsaved_nil⟩
    · exact (unsaved_truncateBuffer o 0).bind fun p hp => hp
  have hsave : ∀ o : Observation, o.Json G →
      Returns (obsProcessAccepted.save P ctx o) (ObsJson G) := by
    intro o ho
    unfold obsProcessAccepted.save
    split
    · exact .of_unsaved ho unsaved_nil
    · split
      · exact json_backup ho
      · exact .of_unsaved ho unsaved_nil
  unfold obsProcessAccepted
  split
  · exact .of_unsaved ho unsaved_nil
  · refine hretype.bind fun p hp => ?_
    refine (unsaved_truncateBuffer _ _).bind fun q hq => ?_
    have hadded := json_addToBuffer (ho.mono hp.1) hs
    refine (hsave q.1 (hadded.mono hq.1)).bind fun r hr => ?_
    exact (hr.before hq.2).before hp.2

theorem json_setTransform (ho : o.Json G) (transformType : TransformType) :
    Returns (obsSetTransform o transformType) (ObsJson G) :=
  (unsaved_truncateBuffer _ 0).mono fun _ hp =>
    .of_unsaved (ho.mono (List.Subset.trans hp.1 (List.Subset.refl _))) hp.2

theorem json_setBufferMaxCount (ho : o.Json G) (count : UInt32) :
    Returns (obsSetBufferMaxCount P ctx o count) (ObsJson G) := by
  unfold obsSetBufferMaxCount
  split
  · exact .of_unsaved ho unsaved_nil
  · have hdis : ∃ o' evs, (if count.toNat = 0 ∧ 0 < o.backupPeriod then disableBackups P ctx o
        else (o, [])) = (o', evs) ∧ o'.samples = o.samples ∧ Unsaved evs := by
      split
      · exact ⟨_, _, rfl, rfl, unsaved_deleteBackup⟩
      · exact ⟨_, _, rfl, rfl, unsaved_nil⟩
    obtain ⟨o', evs, heq, hsame, hevs⟩ := hdis
    rw [heq]
    refine (unsaved_truncateBuffer _ _).bind fun p hp => ?_
    refine .of_unsaved (ho.mono (List.Subset.trans hp.1 ?_)) (hevs.append hp.2)
    exact hsame ▸ List.Subset.refl _

theorem json_setBufferBackupPeriod (ho : o.Json G) (seconds : UInt32) :
    Returns (obsSetBufferBackupPeriod P ctx o seconds) (ObsJson G) := by
  unfold obsSetBufferBackupPeriod
  split
  · exact .of_unsaved ho unsaved_nil
  · dsimp only
    split
    · exact .of_unsaved ho unsaved_nil
    · split
      · exact .of_unsaved ho unsaved_deleteBackup
      · split
        · exact .of_unsaved ho unsaved_nil
        · split
          · exact json_backup ho
          · exact .of_unsaved ho unsaved_nil

/-! ### Reads -/

theorem hold_sampleList (o : Observation) (e : Option BufferEntry) :
    (o.hold e).sampleList = o.sampleList := by
  cases e <;> rfl

theorem letGo_sampleList (o : Observation) (e : Option BufferEntry) :
    (o.letGo e).sampleList = o.sampleList := by
  cases e <;> rfl

theorem catchUp_sampleList (o : Observation) (e : BufferEntry) :
    (catchUp o e).1.sampleList = o.sampleList := by
  unfold catchUp
  split
  · dsimp only
    split <;> rfl
  · rfl

theorem advance_sampleList (o : Observation) (e : BufferEntry) :
    (advance P o e).1.sampleList = o.sampleList := by
  unfold advance
  split <;> rfl

theorem unsaved_loading (t t' : DataType) (s : DataSample) (h : Unsaved evs) :
    Unsaved (.loading t t' s :: evs) := by
  intro path content hmem
  rcases List.mem_cons.mp hmem with heq | hmem
  · cases heq
  · exact h path content hmem

theorem unsaved_readDone (op : ReadOperation) (result : LeResult) :
    Unsaved [.readDone op result] := by
  intro path content hmem
  cases List.mem_singleton.mp hmem

theorem unsaved_loadLoop (n : Nat) (o : Observation) (op : ReadOperation) :
    Returns (loadLoop P t n o op) fun l =>
      l.obs.sampleList = o.sampleList ∧ Unsaved l.events := by
  induction n generalizing o op with
  | zero => exact id
  | succ n ih =>
    unfold loadLoop
    cases op.nextEntryPtr with
    | none => exact ⟨rfl, unsaved_nil⟩
    | some parked =>
      have hcaught := catchUp_sampleList o parked
      dsimp only
      generalize catchUp o parked = caught at hcaught ⊢
      obtain ⟨o₁, _ | e⟩ := caught
      · exact ⟨hcaught, unsaved_nil⟩
      · have hmoved : (advance P o₁ e).1.sampleList = o.sampleList :=
          (advance_sampleList o₁ e).trans hcaught
        refine Returns.skip fun text => ?_
        cases text with
        | some text => exact ⟨hmoved, unsaved_loading _ _ _ unsaved_nil⟩
        | none =>
          refine (ih _ _).bind fun rest hrest => ?_
          exact ⟨hrest.1.trans hmoved, unsaved_loading _ _ _ hrest.2⟩

theorem unsaved_nextState (o : Observation) (op : ReadOperation) (n : Nat) :
    Returns (nextState P t o op n) fun c =>
      c.obs.sampleList = o.sampleList ∧ Unsaved c.events := by
  unfold nextState
  dsimp only
  split
  · exact ⟨rfl, unsaved_nil⟩
  · split
    · exact (unsaved_loadLoop _ _ _).bind fun l hl => hl
    · exact ⟨rfl, unsaved_nil⟩
  · exact ⟨rfl, unsaved_nil⟩
  · exact ⟨letGo_sampleList _ _, unsaved_readDone _ _⟩

theorem unsaved_continueReadOp (script : List WriteResult) (o : Observation) (op : ReadOperation) :
    Returns (continueReadOp P t script o op) fun c =>
      c.obs.sampleList = o.sampleList ∧ Unsaved c.events := by
  induction script generalizing o op with
  | nil => exact ⟨rfl, unsaved_nil⟩
  | cons result script ih =>
    cases result with
    | again => exact ⟨rfl, unsaved_nil⟩
    | failed => exact ⟨letGo_sampleList _ _, unsaved_readDone _ _⟩
    | wrote n =>
      unfold continueReadOp
      refine (unsaved_nextState o op _).bind fun next hnext => ?_
      split
      · exact hnext
      · refine (ih _ _).bind fun rest hrest => ?_
        exact ⟨hrest.1.trans hnext.1, hnext.2.append hrest.2⟩

theorem store_sampleList (c : Continued) (id : Nat) :
    (c.store id).sampleList = c.obs.sampleList := by
  unfold Continued.store
  split <;> rfl

theorem ObsJson.of_sampleList (ho : o.Json G) (hsame : o'.sampleList = o.sampleList)
    (hevs : Unsaved evs) : ObsJson G (o', evs) := by
  refine .of_unsaved (ho.mono ?_) hevs
  rw [Observation.samples, hsame]
  exact List.Subset.refl _

theorem json_readBufferJson (ho : o.Json G) (id : Nat) (startAfter : Double)
    (script : List WriteResult) :
    Returns (obsReadBufferJson P ctx o id startAfter script) (ObsJson G) := by
  unfold obsReadBufferJson
  refine (unsaved_loadLoop _ _ _).bind fun l hl => ?_
  refine (unsaved_continueReadOp script _ _).bind fun c hc => ?_
  refine .of_sampleList ho ?_ (hl.2.append hc.2)
  rw [store_sampleList, hc.1]
  exact hl.1.trans (hold_sampleList _ _)

theorem json_fdEventHandler (ho : o.Json G) (id : Nat) (hangUp : Bool)
    (script : List WriteResult) :
    Returns (readOpFdEventHandler P t o id hangUp script) (ObsJson G) := by
  unfold readOpFdEventHandler
  split
  · exact .of_unsaved ho unsaved_nil
  · refine (unsaved_continueReadOp _ _ _).bind fun c hc => ?_
    exact .of_sampleList ho ((store_sampleList c id).trans hc.1) hc.2

end MangOH.DataHub
