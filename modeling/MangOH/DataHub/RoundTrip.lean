import MangOH.DataHub.Reachability
import MangOH.DataHub.Scenario

/-! Backing up a sample buffer and restoring it into a new Observation. -/
namespace MangOH.DataHub

open Outcome BoundedQueue Codec

variable {P : Platform} {env : Environment} {ctx : ObsContext} {o o' : Observation}
  {s : DataSample} {t : DataType} {l : List DataSample} {rest : Bytes} {h : Hub} {r : ResRef}
  {x : Resource}

/-- What a backup keeps of a sample. -/
def DataSample.bare (s : DataSample) : DataSample := { s with via := [], hops := 0 }

/-- A sample with an empty text cannot be written. -/
def DataSample.isWritable (s : DataSample) : Bool :=
  match s.value with
  | .string text | .json text => !text.bytes.isEmpty
  | _ => true

/-! ### The encoding of samples -/

def Value.encoded : Value → Bytes
  | .trigger => []
  | .boolean b => [if b then 1 else 0]
  | .numeric d => encodeLe 8 d.bits.toNat
  | .string text | .json text => encodeLe 4 text.bytes.length ++ text.bytes

def DataSample.encoded (s : DataSample) : Bytes :=
  encodeLe 8 s.timestamp.bits.toNat ++ s.value.encoded

theorem textOf_bytes (text : Text) : textOf text.bytes = .ok text := by
  have hbytes : cString text.bytes = text.bytes := cString_of_noNul text.noNul
  unfold textOf
  rw [dif_pos (by rw [hbytes]; exact text.bounded)]
  exact congrArg Except.ok (Text.ext_bytes hbytes)

theorem ofNat_decodeLe (d : Double) :
    (⟨BitVec.ofNat 64 (decodeLe (encodeLe 8 d.bits.toNat))⟩ : Double) = d := by
  rw [decodeLe_encodeLe_of_lt (by have := d.bits.isLt; omega), BitVec.ofNat_toNat,
    BitVec.setWidth_eq]

theorem createSample_bare (env : Environment) (hs : s.timestamp.eq .zero = false) :
    createSample env s.timestamp s.value = s.bare := by
  simp [createSample, hs, DataSample.bare]

theorem writeValue_eq (hs : s.type = t) :
    writeValue t s = .ok (if s.isWritable then some s.value.encoded else none) := by
  obtain ⟨ts, v, u⟩ := s
  subst hs
  have htext : ∀ text : Text,
      (writeToStream text.bytes).map (encodeLe 4 text.bytes.length ++ ·) =
        if !text.bytes.isEmpty then
          some (encodeLe 4 text.bytes.length ++ text.bytes) else none := by
    intro text
    unfold writeToStream
    cases text.bytes with
    | nil => rfl
    | cons c bytes => rfl
  cases v with
  | trigger => rfl
  | boolean b => rfl
  | numeric d => rfl
  | string text => exact congrArg Except.ok (htext text)
  | json text => exact congrArg Except.ok (htext text)

theorem readText_eq {create : Environment → Double → Bytes → Except Fault DataSample}
    {timestamp : Double} (text : Text) (hcreate : create env timestamp text.bytes = .ok s) :
    readValue.readText env timestamp (encodeLe 4 text.bytes.length ++ text.bytes ++ rest) create =
      .ok (some (s, rest)) := by
  have hbounded : text.bytes.length ≤ 50000 := text.bounded
  have hlen : decodeLe (encodeLe 4 text.bytes.length) = text.bytes.length :=
    decodeLe_encodeLe_of_lt (by omega)
  unfold readValue.readText
  rw [List.append_assoc, takeBytes_encodeLe]
  dsimp only
  rw [hlen, if_neg (Nat.not_lt.mpr text.bounded), takeBytes_append rfl]
  simp only [hcreate]
  rfl

theorem readValue_eq (hs : s.type = t) (hstamp : s.timestamp.eq .zero = false) :
    readValue env t s.timestamp (s.value.encoded ++ rest) = .ok (some (s.bare, rest)) := by
  have hcreate := createSample_bare env hstamp
  obtain ⟨ts, v, u⟩ := s
  subst hs
  cases v with
  | trigger => exact congrArg (fun s => Except.ok (some (s, rest))) hcreate
  | boolean b =>
    have htake : takeBytes 1 ([if b then 1 else 0] ++ rest) = some ([if b then 1 else 0], rest) :=
      takeBytes_append rfl
    have hbool : decide ([if b then (1 : UInt8) else 0] ≠ [0]) = b := by cases b <;> rfl
    show Except.ok _ = _
    rw [show (Value.boolean b).encoded = [if b then 1 else 0] from rfl, htake, Option.map_some]
    dsimp only
    rw [hbool]
    exact congrArg (fun s => Except.ok (some (s, rest))) hcreate
  | numeric d =>
    have htake : takeBytes 8 (encodeLe 8 d.bits.toNat ++ rest) =
        some (encodeLe 8 d.bits.toNat, rest) := takeBytes_encodeLe
    show Except.ok _ = _
    rw [show (Value.numeric d).encoded = encodeLe 8 d.bits.toNat from rfl, htake, Option.map_some]
    dsimp only
    rw [ofNat_decodeLe]
    exact congrArg (fun s => Except.ok (some (s, rest))) hcreate
  | string text =>
    refine readText_eq text ?_
    rw [dataSampleCreateString, textOf_bytes]
    exact congrArg Except.ok hcreate
  | json text =>
    refine readText_eq text ?_
    rw [dataSampleCreateJson, textOf_bytes]
    exact congrArg Except.ok hcreate

theorem writeSamplesToFile_eq (hl : ∀ s ∈ l, s.type = t) :
    writeSamplesToFile t l =
      .ok (if l.all DataSample.isWritable then some (l.flatMap DataSample.encoded) else none) := by
  induction l with
  | nil => rfl
  | cons s l ih =>
    have hrest := ih fun s hs => hl s (List.mem_cons_of_mem _ hs)
    rw [writeSamplesToFile, writeValue_eq (hl s List.mem_cons_self), List.all_cons]
    cases s.isWritable with
    | false => rfl
    | true =>
      simp only [if_true, hrest, Bool.true_and]
      cases l.all DataSample.isWritable with
      | false => rfl
      | true => simp [ok_bind, DataSample.encoded, pure, Except.pure]

theorem readNext_eq {next : DataSample → Bytes → Except Fault (Observation × Option DataSample)}
    (hs : s.type = t) (hstamp : s.timestamp.eq .zero = false) :
    readSamples.readNext env t o (s.encoded ++ rest) next = next s.bare rest := by
  unfold readSamples.readNext DataSample.encoded
  rw [List.append_assoc, takeBytes_encodeLe]
  simp only [ofNat_decodeLe, readValue_eq hs hstamp]
  rfl

/-! ### Reading a whole file -/

theorem readSamples_eq (env : Environment) (o : Observation) (newest : DataSample)
    (hl : ∀ s ∈ l, s.type = t)
    (hstamps : ∀ s ∈ l, s.timestamp.eq .zero = false) :
    readSamples env t l.length o newest (l.flatMap DataSample.encoded) =
      .ok ((newest :: l.map DataSample.bare).dropLast.foldl addToBuffer o,
        (newest :: l.map DataSample.bare).getLast?) := by
  induction l generalizing o newest with
  | nil => rfl
  | cons s l ih =>
    rw [List.length_cons, List.flatMap_cons, readSamples,
      readNext_eq (hl s List.mem_cons_self) (hstamps s List.mem_cons_self),
      ih _ _ (fun s hs => hl s (List.mem_cons_of_mem _ hs))
        (fun s hs => hstamps s (List.mem_cons_of_mem _ hs))]
    rfl

theorem readSamplesFromFile_eq (hl : ∀ s ∈ l, s.type = o.bufferedType)
    (hstamps : ∀ s ∈ l, s.timestamp.eq .zero = false)
    (hlast : (l.map DataSample.bare).getLast? = some s) :
    readSamplesFromFile env o (l.flatMap DataSample.encoded) l.length =
      .ok ((l.map DataSample.bare).dropLast.foldl addToBuffer o, [], some s) := by
  cases l with
  | nil => cases hlast
  | cons s₁ l =>
    have hread := readSamples_eq env o s₁.bare
      (fun s hs => hl s (List.mem_cons_of_mem _ hs))
      (fun s hs => hstamps s (List.mem_cons_of_mem _ hs))
    rw [List.map_cons] at hlast
    rw [hlast] at hread
    rw [List.length_cons, List.flatMap_cons, readSamplesFromFile,
      readNext_eq (hl s₁ List.mem_cons_self) (hstamps s₁ List.mem_cons_self), hread]
    rfl

/-- Samples in order fill a buffer one by one. -/
theorem samples_foldl_addToBuffer (h : InOrder olderThan (o.samples ++ l)) :
    (l.foldl addToBuffer o).samples = o.samples ++ l := by
  induction l generalizing o with
  | nil => simp
  | cons s l ih =>
    have hs : ∀ b, o.samples.getLast? = some b → olderThan s b = false := by
      intro b hb
      exact (List.isChain_append.mp h).2.2 b (by simpa using hb) s (by simp)
    have hadd : (addToBuffer o s).samples = o.samples ++ [s] := by
      rw [samples_addToBuffer, push_of_not_older olderThan hs]
    rw [List.foldl_cons, ih (by rw [hadd]; simpa using h), hadd]
    simp

theorem sameSettings_foldl (o : Observation) (l : List DataSample) :
    SameSettings o (l.foldl addToBuffer o) ∧
      (l.foldl addToBuffer o).bufferedType = o.bufferedType := by
  induction l generalizing o with
  | nil => exact ⟨by constructor <;> rfl, rfl⟩
  | cons s l ih =>
    obtain ⟨hset, htype⟩ := ih (addToBuffer o s)
    exact ⟨(sameSettings_addToBuffer o s).trans hset, htype.trans (bufferedType_addToBuffer o s)⟩

theorem bufferCore_foldl (h : o.BufferCore) (hl : ∀ s ∈ l, s.type = o.bufferedType) :
    (l.foldl addToBuffer o).BufferCore := by
  induction l generalizing o with
  | nil => exact h
  | cons s l ih =>
    refine ih (h.add (hl s List.mem_cons_self)) fun s' hs' => ?_
    rw [bufferedType_addToBuffer]
    exact hl s' (List.mem_cons_of_mem _ hs')

/-- The Observation into which a file is read, before the newest sample is pushed to it. -/
def restoring (t : DataType) (n : Nat) : Observation :=
  { obsCreate with bufferedType := t, maxCount := n }

theorem obsRestoreContent_eq {n : Nat} (hn : n < 2 ^ 32) (bytes : Bytes) :
    obsRestoreContent env obsCreate (0 :: getDataTypeCode t :: (encodeLe 4 n ++ bytes)) =
      readSamplesFromFile env (restoring t n) bytes n := by
  simp only [obsRestoreContent, getDataTypeFromCode_getDataTypeCode, takeBytes_encodeLe,
    decodeLe_encodeLe_of_lt (show n < 256 ^ 4 by omega)]
  rfl

/-! ### The push of the newest sample -/

variable {n : Nat} {t₀ : DataType}

theorem withinLimits_new {d : Double} (hset : SameSettings (restoring t₀ n) o) :
    withinLimits o d = true := by
  simp [withinLimits, hset.highLimit, hset.lowLimit, restoring, obsCreate]

/-- Without filters that look back only the limits matter. -/
theorem shouldAccept_unset (hchange : o.changeBy.isSet = false)
    (hperiod : o.minPeriod.isSet = false)
    (current : Option DataSample) (overridden : Bool) :
    obsShouldAccept P ctx o current overridden t s = obsShouldAccept.limitsPass o t s >>=
      fun inLimits => pure (if inLimits then
        some { o with lastPushTime := getRelativeTimeMs ctx.env } else none) := by
  unfold obsShouldAccept
  cases obsShouldAccept.limitsPass o t s with
  | error e => rfl
  | ok inLimits =>
    cases inLimits with
    | false => rfl
    | true =>
      cases current with
      | none => rfl
      | some previous =>
        simp only [obsShouldAccept.changePasses, ok_bind, hchange, hperiod]
        rfl

/-- Filters that have not been set let every sample through. -/
theorem shouldAccept_new (hset : SameSettings (restoring t₀ n) o) (hs : s.type = t)
    (current : Option DataSample) (overridden : Bool) :
    obsShouldAccept P ctx o current overridden t s =
      .ok (some { o with lastPushTime := getRelativeTimeMs ctx.env }) := by
  have hlimits : obsShouldAccept.limitsPass o t s = .ok true := by
    unfold obsShouldAccept.limitsPass
    split
    · next ht =>
      obtain ⟨ts, v, u⟩ := s
      cases v with
      | numeric d => exact congrArg Except.ok (withinLimits_new hset)
      | trigger => cases hs.trans ht
      | boolean => cases hs.trans ht
      | string => cases hs.trans ht
      | json => cases hs.trans ht
    · rfl
  have hchange : o.changeBy.isSet = false := by
    rw [hset.changeBy]
    rfl
  have hperiod : o.minPeriod.isSet = false := by
    rw [hset.minPeriod]
    rfl
  rw [shouldAccept_unset hchange hperiod, hlimits]
  rfl

/-- A resource of a new Observation, in whose record something has changed. -/
def newObservation (e : EntryRef) (o : Observation) : Resource :=
  { resCreateObservation e with cls := .observation o }

theorem resPushLocal_new {e : EntryRef} {evs : List ObsEvent} (hops : s.hops = 0)
    (hjson : o.jsonExtraction = [])
    (hproc : obsProcessAccepted P ctx o t s.bare = .ok (o', evs))
    (htrans : o'.transformType = .none)
    (haccepts : obsShouldAccept P ctx o' none false t s.bare =
      .ok (some { o' with lastPushTime := getRelativeTimeMs ctx.env })) :
    resPushLocal P ctx .observation (newObservation e o) t [] s = .ok
      ⟨{ newObservation e { o' with lastPushTime := getRelativeTimeMs ctx.env } with
          pushedValue := some { s.bare with hops := 1 }, pushedType := t }, evs,
        some (t, { s.bare with hops := 1 })⟩ := by
  have hextract : obsDoJsonExtraction P ctx.env o t s.bare = .ok (some (t, s.bare)) := if_pos hjson
  have htransform : obsApplyTransform P ctx.env o' t s.bare = .ok s.bare := by
    unfold obsApplyTransform
    rw [htrans]
    rfl
  have hadmission : admission P ctx .observation (newObservation e o) t s.bare = .ok
      ⟨newObservation e { o' with lastPushTime := getRelativeTimeMs ctx.env }, evs,
        some (t, s.bare)⟩ := by
    show obsAdmit P ctx (newObservation e o) o t s.bare = _
    simp only [obsAdmit, hextract, ok_bind, hproc, htransform]
    rw [show (newObservation e o).currentValue = none from rfl,
      show (newObservation e o).overrideValue.isSome = false from rfl, haccepts]
    rfl
  unfold resPushLocal
  rw [show ({ s with via := [] } : DataSample) = s.bare by rw [DataSample.bare, hops], hadmission]
  rfl

variable {e : EntryRef} {entry : Entry}

theorem updateCurrentValue_new
    (push : Hub → ResRef → DataType → CString → DataSample → Except Fault Hub)
    (hx : h.resources r = some x) (htype : h.entryType x = .ok .observation)
    (hdests : x.destList = []) (hhandlers : x.pushHandlerList = []) :
    updateCurrentValue P push h r t s = .ok (((h.setResource r (x.install t s)).emit
      (.accepting r .observation [] s)).emit (.notifying r [] s)) := by
  unfold updateCurrentValue
  simp only [getResource_ok.mpr hx, htype, ok_bind, isAcceptable, hdests, hhandlers]
  rfl

/-- The newest sample goes through and becomes the current value. -/
theorem resPush_new {evs : List ObsEvent} (fuel : Nat)
    (hx : h.resources r = some (newObservation e o)) (he : h.entries e = some entry)
    (htype : entry.type = .observation) (hset : SameSettings (restoring t₀ n) o) (hs : s.type = t)
    (hops : s.hops = 0)
    (hproc : obsProcessAccepted P (obsContext h (newObservation e o)) o t s.bare = .ok (o', evs))
    (hset' : SameSettings o o') :
    ∃ h₂ x₂, resPush P (fuel + 1) h r t [] s = .ok h₂ ∧ h₂.resources r = some x₂ ∧
      x₂.cls = .observation { o' with lastPushTime := getRelativeTimeMs h.env } ∧
      x₂.currentValue = some { s.bare with hops := 1 } := by
  have hnew := hset.trans hset'
  have hlocal := resPushLocal_new (e := e) hops (hset.jsonExtraction.trans rfl) hproc
    (hnew.transformType.trans rfl) (shouldAccept_new (s := s.bare) hnew hs none false)
  have hentry : h.entryType (newObservation e o) = .ok .observation := by
    rw [entryType_ok he, htype]
  unfold resPush
  simp only [getResource_ok.mpr hx, hentry, ok_bind, hlocal]
  refine ⟨_, _, updateCurrentValue_new _ (Function.update_self ..) ?_ rfl rfl,
    Function.update_self .., rfl, rfl⟩
  exact hentry

/-! ### Backup and restore -/

/-- The file that a backup leaves, if it leaves one. -/
def fileOf (currentType : DataType) (o : Observation) : Bytes :=
  0 :: getDataTypeCode currentType :: (encodeLe 4 o.count ++ o.samples.flatMap DataSample.encoded)

theorem backup_eq (hl : ∀ s ∈ o.samples, s.type = o.bufferedType) {path : CString}
    (hpath : getBackupFilePath P (maxBackupFilePathBytes P) ctx = some path)
    (hup : ctx.env.fileSystemUp = true) : ∃ o', backup P ctx o =
      .ok (o', .backingUp ctx.currentType o.bufferedType o.samples ::
        if o.samples.all DataSample.isWritable then [.committed path (fileOf ctx.currentType o)]
        else []) := by
  refine ⟨{ o with backupTimer := false, lastBackupTime := ctx.env.relSec % 2 ^ 32 }, ?_⟩
  have hcontent : backupContent ctx.currentType
      { o with backupTimer := false, lastBackupTime := ctx.env.relSec % 2 ^ 32 } =
      .ok (if o.samples.all DataSample.isWritable then some (fileOf ctx.currentType o)
        else none) := by
    rw [backupContent, show ({ o with backupTimer := false, lastBackupTime :=
      ctx.env.relSec % 2 ^ 32 } : Observation).samples = o.samples from rfl,
      writeSamplesToFile_eq hl, ok_bind]
    cases o.samples.all DataSample.isWritable <;> rfl
  unfold backup
  simp only [hpath, hup, Bool.not_true, Bool.false_eq_true, if_false, hcontent]
  cases o.samples.all DataSample.isWritable <;> rfl

/-- What an app can tell of a sample. -/
def DataSample.reading (s : DataSample) : Double × Value := (s.timestamp, s.value)

/-- A new Observation at some path of the tree, and a backup file for it. -/
structure NewAt (h : Hub) (r : ResRef) (e : EntryRef) (entry : Entry) (obsPath path : CString)
    (content : Bytes) : Prop where
  isNew : h.resources r = some (resCreateObservation e)
  atEntry : h.entries e = some entry
  isObservation : entry.type = .observation
  atPath : obsPathOf h e = some obsPath
  fileSystemUp : h.env.fileSystemUp = true
  file : h.file path = some content

/-- A file, read into a new Observation, gives the buffer of `o`, and the newest sample as the
current value. -/
def RestoresTo (P : Platform) (obsPath path : CString) (content : Bytes) (o : Observation) : Prop :=
  ∀ h r e entry fuel, NewAt h r e entry obsPath path content →
    ∃ h₂ x₂ o₂, resRestoreBackup P (fuel + 1) h r = .ok h₂ ∧ h₂.resources r = some x₂ ∧
      x₂.cls = .observation o₂ ∧ o₂.bufferedType = o.bufferedType ∧
      o₂.samples.map DataSample.reading = o.samples.map DataSample.reading ∧
      x₂.currentValue.map DataSample.reading = o.samples.getLast?.map DataSample.reading

/-- A backup leaves a file that restores the buffer. -/
def RoundTrip (P : Platform) (ctx : ObsContext) (obsPath : CString) (o : Observation) : Prop :=
  ∃ o' evs path content, backup P ctx o = .ok (o', evs) ∧ .committed path content ∈ evs ∧
    RestoresTo P obsPath path content o

section New

variable {obsPath path : CString} {content : Bytes} {evs : List ObsEvent}
  {newest : Option DataSample}

theorem getBackupFilePath_congr {size : Nat} {ctx' : ObsContext} (h : ctx'.obsPath = ctx.obsPath) :
    getBackupFilePath P size ctx' = getBackupFilePath P size ctx := by
  rw [getBackupFilePath, getBackupFilePath, h]

/-- The hub after the file has been read, before the newest sample is pushed. -/
def afterReading (h : Hub) (r : ResRef) (e : EntryRef) (content : Bytes) (evs : List ObsEvent)
    (o : Observation) : Hub :=
  ((h.emit (.restoring r h.env content)).emitObs r evs).setResource r (newObservation e o)

/-- The last step of a restoration. -/
def pushNewest (P : Platform) (fuel : Nat) (h : Hub) (r : ResRef) (t : DataType) :
    Option DataSample → Except Fault Hub
  | some s => resPush P fuel h r t [] s
  | none => .ok h

theorem resRestoreBackup_eq (hnew : NewAt h r e entry obsPath path content)
    (hctx : ctx.obsPath = some obsPath)
    (hpath : getBackupFilePath P (maxBackupFilePathBytes P) ctx = some path) (fuel : Nat) :
    resRestoreBackup P fuel h r = obsRestoreContent h.env obsCreate content >>= fun read =>
      pushNewest P fuel (afterReading h r e content read.2.1 read.1) r read.1.bufferedType
        read.2.2 := by
  have hobs : getBackupFilePath P (maxBackupFilePathBytes P)
      (obsContext h (resCreateObservation e)) = some path := by
    rw [← hpath]
    exact getBackupFilePath_congr (hnew.atPath.trans hctx.symm)
  unfold resRestoreBackup
  simp only [getResource_ok.mpr hnew.isNew, ok_bind, hobs, hnew.fileSystemUp, if_true, hnew.file]
  show (obsRestoreContent h.env obsCreate content >>= _) = _
  cases obsRestoreContent h.env obsCreate content with
  | error f => rfl
  | ok read =>
    obtain ⟨o, evs, newest⟩ := read
    cases newest with
    | some s => rfl
    | none => rfl

/-- The newest sample read from a file is pushed to the Observation. -/
theorem push_restored (evs : List ObsEvent) (hnew : NewAt h r e entry obsPath path content)
    (hset : SameSettings (restoring t₀ n) o) (hb : o.BufferOk) (hs : s.type = o.bufferedType)
    (hops : s.hops = 0) (fuel : Nat) : ∃ h₂ x₂ o₂,
      resPush P (fuel + 1) (afterReading h r e content evs o) r o.bufferedType [] s = .ok h₂ ∧
      h₂.resources r = some x₂ ∧ x₂.cls = .observation o₂ ∧ o₂.bufferedType = o.bufferedType ∧
      o₂.samples = bufferAfter o o.bufferedType s.bare ∧
      x₂.currentValue = some { s.bare with hops := 1 } := by
  obtain ⟨⟨o', evs'⟩, hproc, _, hsamples, htype, hset', _⟩ :=
    Sat.exists_ok (x := obsProcessAccepted P
      (obsContext (afterReading h r e content evs o) (newObservation e o)) o o.bufferedType s.bare)
      (sat_processAccepted hb hs)
  obtain ⟨h₂, x₂, hpush, hx₂, hcls, hcurrent⟩ := resPush_new
    (h := afterReading h r e content evs o) fuel (Function.update_self ..) hnew.atEntry
    hnew.isObservation hset hs hops hproc hset'
  refine ⟨h₂, x₂, _, hpush, hx₂, hcls, ?_, hsamples, hcurrent⟩
  dsimp only at htype ⊢
  rw [htype, ite_self]

theorem bare_map_getLast? (hne : l ≠ []) :
    ∃ s, (l.map DataSample.bare).getLast? = some s ∧ l.map DataSample.bare =
      (l.map DataSample.bare).dropLast ++ [s] := by
  have hne' : l.map DataSample.bare ≠ [] := by simpa using hne
  refine ⟨_, List.getLast?_eq_some_getLast hne', ?_⟩
  exact (List.dropLast_append_getLast hne').symm

theorem reading_bare (l : List DataSample) :
    (l.map DataSample.bare).map DataSample.reading = l.map DataSample.reading := by
  rw [List.map_map]
  rfl

/-- A file with all samples of a buffer, under the right type, restores the buffer. -/
theorem restoresTo_fileOf (hb : o.BufferOk) (hne : o.samples ≠ [])
    (hstamps : ∀ s ∈ o.samples, s.timestamp.eq .zero = false)
    (hctx : ctx.obsPath = some obsPath)
    (hpath : getBackupFilePath P (maxBackupFilePathBytes P) ctx = some path) :
    RestoresTo P obsPath path (fileOf o.bufferedType o) o := by
  intro h r e entry fuel hnew
  obtain ⟨last, hlast, hsplit⟩ := bare_map_getLast? hne
  have hcount : o.count = o.samples.length := hb.count_eq.trans length_samples.symm
  have hlt : o.samples.length < 2 ^ 32 := by
    have := hb.count_le
    have := hb.maxCount_lt
    omega
  have htyped : ∀ s ∈ o.samples.map DataSample.bare, s.type = o.bufferedType := by
    intro s hs
    obtain ⟨s', hs', rfl⟩ := List.mem_map.mp hs
    exact hb.typed s' hs'
  have horder : InOrder olderThan (o.samples.map DataSample.bare) :=
    (List.isChain_map DataSample.bare).mpr hb.inOrder
  generalize hfront : (o.samples.map DataSample.bare).dropLast = front at hsplit
  have hread : obsRestoreContent h.env obsCreate (fileOf o.bufferedType o) =
      .ok (front.foldl addToBuffer (restoring o.bufferedType o.samples.length), [], some last) := by
    rw [fileOf, hcount, obsRestoreContent_eq hlt,
      readSamplesFromFile_eq (o := restoring _ _) hb.typed hstamps hlast, hfront]
  rw [hsplit] at htyped horder
  have hnewOk : (restoring o.bufferedType o.samples.length).BufferCore :=
    ⟨rfl, List.isChain_nil, fun s hs => absurd hs List.not_mem_nil⟩
  have hfrontTyped : ∀ s ∈ front, s.type = o.bufferedType :=
    fun s hs => htyped s (List.mem_append_left _ hs)
  have hcore := bufferCore_foldl hnewOk hfrontTyped
  have hsamples := samples_foldl_addToBuffer (o := restoring o.bufferedType o.samples.length)
    (l := front) (List.isChain_append.mp horder).1
  obtain ⟨hset, htype⟩ := sameSettings_foldl (restoring o.bufferedType o.samples.length) front
  have hlength : front.length + 1 = o.samples.length := by
    have := congrArg List.length hsplit
    simpa using this.symm
  rw [resRestoreBackup_eq hnew hctx hpath, hread, ok_bind]
  generalize front.foldl addToBuffer (restoring o.bufferedType o.samples.length) = o₁ at *
  have hsamples : o₁.samples = front := hsamples
  have hmax : o₁.maxCount = o.samples.length := hset.maxCount
  have hcount₁ : o₁.count = front.length := by
    rw [hcore.count_eq, ← length_samples, hsamples]
  have htype : o₁.bufferedType = o.bufferedType := htype
  have hok : o₁.BufferOk := ⟨hcore, by omega, by omega⟩
  have hbare : last.bare = last := by
    obtain ⟨s, _, rfl⟩ := List.mem_map.mp (List.mem_of_getLast? hlast)
    rfl
  obtain ⟨h₂, x₂, o₂, hpush, hx₂, hcls, htype₂, hsamples₂, hcurrent⟩ :=
    push_restored [] (s := last) hnew hset hok
      ((htyped last (by simp)).trans htype.symm) (congrArg DataSample.hops hbare).symm fuel
  have hpushed : push olderThan front last = front ++ [last] := by
    refine push_of_not_older olderThan fun b hb => ?_
    exact (List.isChain_append.mp horder).2.2 b hb last rfl
  have hafter : bufferAfter o₁ o₁.bufferedType last.bare = o.samples.map DataSample.bare := by
    rw [bufferAfter, if_neg (by omega), if_pos rfl, hbare, hsamples, hpushed, hsplit, hmax]
    exact keepLast_of_length_le (by simp [hlength])
  refine ⟨h₂, x₂, o₂, hpush, hx₂, hcls, htype₂.trans htype, ?_, ?_⟩
  · rw [hsamples₂, hafter, reading_bare]
  · have hreading : x₂.currentValue.map DataSample.reading =
        (some last).map DataSample.reading := by
      rw [hcurrent, hbare]
      rfl
    rw [hreading, ← hlast, ← List.getLast?_map, reading_bare, List.getLast?_map]

/-- A file is restored under the type that its header tells. -/
theorem restored_type {n : Nat} (hn : n < 2 ^ 32) {bytes : Bytes}
    (hnew : NewAt h r e entry obsPath path
      (0 :: getDataTypeCode t :: (encodeLe 4 n ++ bytes)))
    (hctx : ctx.obsPath = some obsPath)
    (hpath : getBackupFilePath P (maxBackupFilePathBytes P) ctx = some path) {fuel : Nat} {h₂ : Hub}
    (hrestore : resRestoreBackup P (fuel + 1) h r = .ok h₂) {x₂ : Resource} {o₂ : Observation}
    (hx₂ : h₂.resources r = some x₂) (ho₂ : x₂.cls = .observation o₂) : o₂.bufferedType = t := by
  have hsat := sat_readSamplesFromFile
    (I := fun k o => o.BufferCore ∧ o.count + k ≤ o.maxCount ∧ o.maxCount < 2 ^ 32 ∧
      SameSettings (restoring t n) o) (o := restoring t n) ?_ ?_ h.env bytes n ?_
  · rw [← obsRestoreContent_eq hn bytes] at hsat
    rw [resRestoreBackup_eq hnew hctx hpath, bind_eq_ok] at hrestore
    obtain ⟨⟨o₁, evs, newest⟩, hread, hrestore⟩ := hrestore
    obtain ⟨⟨k, hcore, hle, hlt, hset⟩, htype, hnewest⟩ := hsat.result hread
    dsimp only at hcore hle hlt hset htype hnewest
    have hok : o₁.BufferOk := ⟨hcore, by omega, hlt⟩
    cases newest with
    | none =>
      cases hrestore
      cases (Function.update_self ..).symm.trans hx₂
      cases ho₂
      exact htype
    | some s =>
      obtain ⟨h₃, x₃, o₃, hpush, hx₃, hcls, htype₃, _⟩ :=
        push_restored evs hnew hset hok
          ((hnewest s rfl).1.trans htype.symm) (hnewest s rfl).2.2 fuel
      cases hpush.symm.trans hrestore
      cases hx₃.symm.trans hx₂
      cases hcls.symm.trans ho₂
      exact htype₃.trans htype
  · rintro k o s hs ⟨hc, hle, hlt, hset⟩
    have hadd := sameSettings_addToBuffer o s
    have hmax := hadd.maxCount
    have hcount := count_addToBuffer_le o s
    exact ⟨hc.add hs, by omega, by omega, hset.trans hadd⟩
  · rintro k o ⟨hc, hle, hlt, hset⟩
    refine (sat_truncateBuffer hc.count_eq 0).mono ?_
    rintro ⟨_, evs⟩ ⟨rc, rfl⟩
    refine ⟨⟨hc.keepLast 0 rc, ?_, hlt, ?_⟩, rfl⟩
    · have : min o.count 0 = 0 := Nat.min_zero _
      show min o.count 0 + k ≤ o.maxCount
      omega
    · exact hset.trans (by constructor <;> rfl)
  · refine ⟨⟨rfl, List.isChain_nil, fun s hs => absurd hs List.not_mem_nil⟩, ?_, hn, ?_⟩
    · exact Nat.le_of_eq (Nat.zero_add n)
    · constructor <;> rfl

/-- A new Observation could stand in the place of any other. -/
theorem newAt_place (hr : Reachable P h) (hx : h.resources r = some x) (ho : x.cls = .observation o)
    (hpath : obsPathOf h x.entryRef = some obsPath) (hup : h.env.fileSystemUp = true)
    (path : CString) (content : Bytes) :
    ∃ entry,
      NewAt { h.setResource r (resCreateObservation x.entryRef) with files := [(path, content)] }
      r x.entryRef entry obsPath path content := by
  have hwf := reachable_wellFormed hr
  obtain ⟨entry, hentry, _⟩ := hwf.entryOf r x hx
  have hcls : ClassOk entry.type x.cls := hwf.cls r x entry hx hentry
  refine ⟨entry, Function.update_self .., hentry, ?_, ?_, hup, by simp [Hub.file]⟩
  · rw [ho] at hcls
    cases htype : entry.type with
    | observation => rfl
    | nameSpace | placeholder | input | output =>
      rw [htype] at hcls
      exact hcls.elim
  · refine (obsPathOf_congr (h := h) ?_ x.entryRef).trans hpath
    rfl

theorem not_roundTrip (hl : ∀ s ∈ o.samples, s.type = o.bufferedType)
    (hpath : getBackupFilePath P (maxBackupFilePathBytes P) ctx = some path)
    (hup : ctx.env.fileSystemUp = true) (hbad : o.samples.all DataSample.isWritable = false) :
    ¬ RoundTrip P ctx obsPath o := by
  rintro ⟨o', evs, path', content, hbackup, hmem, _⟩
  obtain ⟨o'', heq⟩ := backup_eq hl hpath hup
  rw [heq, hbad] at hbackup
  cases hbackup
  simp at hmem

theorem path_of_short {ctx : ObsContext} (hctx : ctx.obsPath = some obsPath)
    (hlen : obsPath ≠ [] ∧ obsPath.length ≤ ioMaxResourcePathLen) :
    ∃ path, getBackupFilePath P (maxBackupFilePathBytes P) ctx = some path := by
  unfold getBackupFilePath
  rw [hctx]
  cases obsPath with
  | nil => exact absurd rfl hlen.1
  | cons c obsPath =>
    refine ⟨_, if_pos ?_⟩
    rw [List.length_append, List.length_append, maxBackupFilePathBytes]
    have := hlen.2
    omega

end New

variable {obsPath : CString}

/-- The buffer of an Observation survives a backup and a restoration just if it has the type of
the resource's current value and no empty text is in it. -/
theorem roundTrip_iff (hr : Reachable P h) (hx : h.resources r = some x)
    (ho : x.cls = .observation o) (hne : o.samples ≠ [])
    (hstamps : ∀ s ∈ o.samples, s.timestamp.eq .zero = false)
    (hpath : obsPathOf h x.entryRef = some obsPath)
    (hlen : obsPath ≠ [] ∧ obsPath.length ≤ ioMaxResourcePathLen)
    (hup : h.env.fileSystemUp = true) :
    RoundTrip P (obsContext h x) obsPath o ↔
      o.bufferedType = x.currentType ∧ o.samples.all DataSample.isWritable = true := by
  have hb : o.BufferOk := bufferOk_of_resource (reachable_wellFormed hr) hx ho
  have hcount : o.count < 2 ^ 32 := Nat.lt_of_le_of_lt hb.count_le hb.maxCount_lt
  have hctx : (obsContext h x).obsPath = some obsPath := hpath
  obtain ⟨path, hfile⟩ := path_of_short (P := P) hctx hlen
  obtain ⟨o', hbackup⟩ := backup_eq hb.typed hfile hup
  constructor
  · intro hround
    cases hall : o.samples.all DataSample.isWritable with
    | false => exact absurd hround (not_roundTrip hb.typed hfile hup hall)
    | true =>
      refine ⟨?_, rfl⟩
      obtain ⟨_, evs, path', content, heq, hmem, hrestores⟩ := hround
      rw [hbackup, hall] at heq
      cases heq
      simp only [if_true, List.mem_cons, reduceCtorEq, false_or, List.not_mem_nil, or_false,
        ObsEvent.committed.injEq] at hmem
      obtain ⟨rfl, rfl⟩ := hmem
      obtain ⟨entry, hnew⟩ := newAt_place hr hx ho hpath hup path' (fileOf x.currentType o)
      obtain ⟨h₂, x₂, o₂, hrestore, hx₂, ho₂, htype, _⟩ := hrestores _ _ _ _ 0 hnew
      exact htype.symm.trans (restored_type hcount hnew hctx hfile hrestore hx₂ ho₂)
  · rintro ⟨htype, hall⟩
    rw [hall, if_pos rfl,
      show (obsContext h x).currentType = o.bufferedType from htype.symm] at hbackup
    exact ⟨o', _, path, _, hbackup, by simp, restoresTo_fileOf hb hne hstamps hctx hfile⟩

/-- A number is pushed to an Observation with a buffer. -/
def numberRun : List Op :=
  [.adminCreateObs (ascii "o"),
   .adminSetBufferMaxCount (ascii "o") 2,
   .adminPush (ascii "/obs/o") (double 3) (.numeric (double 30))]

/-- An empty string is pushed to one. -/
def emptyStringRun : List Op :=
  [.adminCreateObs (ascii "o"),
   .adminSetBufferMaxCount (ascii "o") 2,
   .adminPush (ascii "/obs/o") (double 3) (.string [])]

/-- The first resource is an Observation `o` with samples that can be backed up. -/
def Hub.hasSamples (h : Hub) (writable : Bool) : Bool :=
  h.env.fileSystemUp && (h.resources 0).any fun x =>
    decide (obsPathOf h x.entryRef = some (ascii "o")) &&
      match x.cls with
      | .observation o => !o.samples.isEmpty && o.samples.all (fun s => !s.timestamp.eq .zero) &&
          o.samples.all DataSample.isWritable == writable
      | _ => false

theorem exists_hasSamples {writable : Bool} (hp : h.hasSamples writable = true) :
    h.env.fileSystemUp = true ∧ ∃ x o, h.resources 0 = some x ∧ x.cls = .observation o ∧
      o.samples ≠ [] ∧ (∀ s ∈ o.samples, s.timestamp.eq .zero = false) ∧
      obsPathOf h x.entryRef = some (ascii "o") ∧
      o.samples.all DataSample.isWritable = writable := by
  unfold Hub.hasSamples at hp
  cases hx : h.resources 0 with
  | none => simp [hx] at hp
  | some x =>
    cases hcls : x.cls with
    | observation o =>
      simp only [hx, Option.any_some, hcls, Bool.and_eq_true, decide_eq_true_eq,
        Bool.not_eq_true', List.all_eq_true, beq_iff_eq] at hp
      obtain ⟨hup, hpath, ⟨hne, hstamps⟩, hall⟩ := hp
      exact ⟨hup, x, o, rfl, hcls, by simpa using hne, hstamps, hpath, hall⟩
    | placeholder => simp [hx, hcls] at hp
    | ioPoint => simp [hx, hcls] at hp

theorem roundTrip_iff_numberRun : ∃ h x o, Reachable smallPlatform h ∧ h.resources 0 = some x ∧
    x.cls = .observation o ∧ o.samples ≠ [] ∧
    (RoundTrip smallPlatform (obsContext h x) (ascii "o") o ↔
      o.bufferedType = x.currentType ∧ o.samples.all DataSample.isWritable = true) := by
  have hrun : smallRunEnds numberRun (·.hasSamples true) = true := by decide +kernel
  obtain ⟨h, hr, hp⟩ := exists_of_smallRunEnds hrun
  obtain ⟨hup, x, o, hx, ho, hne, hstamps, hpath, _⟩ := exists_hasSamples hp
  exact ⟨h, x, o, hr, hx, ho, hne,
    roundTrip_iff hr hx ho hne hstamps hpath ⟨by decide, by decide⟩ hup⟩

/-- A buffer with an empty string in it is not even written. -/
theorem roundTrip_fails : ¬ ∀ (h : Hub) (r : ResRef) (x : Resource) (o : Observation)
    (obsPath : CString), Reachable smallPlatform h → h.resources r = some x →
    x.cls = .observation o → o.samples ≠ [] →
    (∀ s ∈ o.samples, s.timestamp.eq .zero = false) → obsPathOf h x.entryRef = some obsPath →
    obsPath ≠ [] ∧ obsPath.length ≤ ioMaxResourcePathLen → h.env.fileSystemUp = true →
    RoundTrip smallPlatform (obsContext h x) obsPath o := by
  intro hall
  have hrun : smallRunEnds emptyStringRun (·.hasSamples false) = true := by decide +kernel
  obtain ⟨h, hr, hp⟩ := exists_of_smallRunEnds hrun
  obtain ⟨hup, x, o, hx, ho, hne, hstamps, hpath, hbad⟩ := exists_hasSamples hp
  have hlen : ascii "o" ≠ [] ∧ (ascii "o").length ≤ ioMaxResourcePathLen := ⟨by decide, by decide⟩
  have hctx : (obsContext h x).obsPath = some (ascii "o") := hpath
  obtain ⟨path, hfile⟩ := path_of_short (P := smallPlatform) hctx hlen
  exact not_roundTrip (bufferOk_of_resource (reachable_wellFormed hr) hx ho).typed hfile hup hbad
    (hall h 0 x o _ hr hx ho hne hstamps hpath hlen hup)

end MangOH.DataHub
