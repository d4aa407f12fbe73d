import MangOH.DataHub.RoundTrip

/-! Restoring a backup that is not in order: the file handle and the references to samples on each
path, and what a failure leaves behind. -/
namespace MangOH.DataHub

open Outcome BoundedQueue Codec

variable {P : Platform} {env : Environment} {ctx : ObsContext} {o o' : Observation}
  {s : DataSample} {t : DataType} {file rest : Bytes} {x x' : Resource}

/-- A backup file that is being read: what is left of it, and how often it has been closed. -/
structure Stream where
  rest : Bytes
  closes : Nat

/-- `le_atomFile_CancelStream` -/
def Stream.cancel (f : Stream) : Stream := { f with closes := f.closes + 1 }

/-- `ReadFromFile` -/
def readFromFile (size : Nat) (f : Stream) : Option Bytes × Stream :=
  match takeBytes size f.rest with
  | some (buff, rest) => (some buff, { f with rest })
  | none => (none, f.cancel)

/-- The `switch` of `ReadSamplesFromFile`. -/
def readSampleValue (env : Environment) (dataType : DataType) (timestamp : Double) (f : Stream) :
    Except Fault (Option DataSample × Stream) :=
  match dataType with
  | .trigger => pure (some (dataSampleCreateTrigger env timestamp), f)
  | .boolean =>
    match readFromFile 1 f with
    | (none, f) => pure (none, f)
    | (some value, f) => pure (some (dataSampleCreateBoolean env timestamp (value ≠ [0])), f)
  | .numeric =>
    match readFromFile 8 f with
    | (none, f) => pure (none, f)
    | (some value, f) =>
      pure (some (dataSampleCreateNumeric env timestamp ⟨BitVec.ofNat 64 (decodeLe value)⟩), f)
  | .string => readString dataSampleCreateString
  | .json => readString dataSampleCreateJson
where
  readString (create : Environment → Double → Bytes → Except Fault DataSample) :
      Except Fault (Option DataSample × Stream) :=
    match readFromFile 4 f with
    | (none, f) => pure (none, f)
    | (some stringLen, f) =>
      if ioMaxStringValueLen < decodeLe stringLen then pure (none, f.cancel)
      else match readFromFile (decodeLe stringLen) f with
        | (none, f) => pure (none, f)
        | (some value, f) => do
          let s ← create env timestamp value
          pure (some s, f)

/-- An Observation that is being restored, the file, and the references to samples that have been
created and neither released nor handed on. -/
structure Restoring where
  obs : Observation
  file : Stream
  held : Nat

/-- The loop of `ReadSamplesFromFile` that expects `count` more samples, and what it gets out of
it for `res_Push`. -/
def readSamplesLoop (env : Environment) (dataType : DataType) :
    Nat → Option DataSample → Restoring → Except Fault (Restoring × Option DataSample)
  | 0, dataSample, r =>
    match readFromFile 8 r.file with
    | (none, f) => pure ({ r with file := f }, dataSample)
    | (some _, f) => pure ({ r with file := f.cancel }, none)
  | count + 1, _, r =>
    match readFromFile 8 r.file with
    | (none, f) => pure ({ r with file := f }, none)
    | (some timestamp, f) => do
      match ← readSampleValue env dataType ⟨BitVec.ofNat 64 (decodeLe timestamp)⟩ f with
      | (none, f) => pure ({ r with file := f }, none)
      | (some s, f) =>
        let obs := if count = 0 then r.obs else addToBuffer r.obs s
        readSamplesLoop env dataType count (some s) ⟨obs, f, r.held + 1⟩

/-- `ReadSamplesFromFile`; `res_Push` takes over the reference to the newest sample. -/
def readAllSamples (env : Environment) (r : Restoring) (count : Nat) :
    Except Fault (Restoring × List ObsEvent × Option DataSample) :=
  if count = 0 then pure (r, [], none)
  else do
    let (r, newest) ← readSamplesLoop env r.obs.bufferedType count none r
    match newest with
    | some s => pure ({ r with held := r.held - 1 }, [], some s)
    | none => do
      let (obs, events) ← truncateBuffer r.obs 0
      pure ({ r with obs }, events, none)

/-- `obs_RestoreBackup` once it has opened the file, up to the push of the newest sample. -/
def readBackup (env : Environment) (o : Observation) (file : Bytes) :
    Except Fault (Restoring × List ObsEvent × Option DataSample) :=
  match readFromFile 1 ⟨file, 0⟩ with
  | (none, f) => pure (⟨o, f, 0⟩, [], none)
  | (some version, f) =>
    if version ≠ [0] then pure (⟨o, f.cancel, 0⟩, [], none)
    else match readFromFile 1 f with
      | (none, f) => pure (⟨o, f, 0⟩, [], none)
      | (some code, f) =>
        match code.head?.bind getDataTypeFromCode with
        | none => pure (⟨o, f.cancel, 0⟩, [], none)
        | some dataType =>
          let o := { o with bufferedType := dataType }
          match readFromFile 4 f with
          | (none, f) => pure (⟨o, f, 0⟩, [], none)
          | (some count, f) =>
            let count := decodeLe count
            let o := { o with maxCount := if o.maxCount = 0 then count else o.maxCount }
            readAllSamples env ⟨o, f, 0⟩ count

/-- `obs_RestoreBackup` of a new Observation, as far as its own record goes: of the push of the
newest sample the part before the current value is set. -/
def restoreNew (P : Platform) (ctx : ObsContext) (x : Resource) (file : Bytes) :
    Except Fault (Resource × Restoring) := do
  let (r, _, newest) ← readBackup ctx.env obsCreate file
  let x := { x with cls := .observation r.obs }
  match newest with
  | none => pure (x, r)
  | some s => do
    let p ← obsAdmit P ctx x r.obs r.obs.bufferedType { s with via := [] }
    pure (p.res, r)

/-! ### The contents of a file -/

/-- The next sample in a file. -/
def sampleIn (env : Environment) (t : DataType) (file : Bytes) : Option (DataSample × Bytes) :=
  match takeBytes 8 file with
  | none => none
  | some (timestamp, file) =>
    match readValue env t ⟨BitVec.ofNat 64 (decodeLe timestamp)⟩ file with
    | .ok read => read
    | .error _ => none

/-- The samples in a file, at most `n`, and what follows them. -/
def samplesIn (env : Environment) (t : DataType) : Nat → Bytes → List DataSample × Bytes
  | 0, file => ([], file)
  | n + 1, file =>
    match sampleIn env t file with
    | none => ([], file)
    | some (s, file) => (s :: (samplesIn env t n file).1, (samplesIn env t n file).2)

/-- The type that the header tells, and what follows the type. -/
def fileType : Bytes → Option (DataType × Bytes)
  | version :: code :: file =>
    if version ≠ 0 then none else (getDataTypeFromCode code).map fun t => (t, file)
  | _ => none

/-- The number of samples that the header announces. -/
def announced (file : Bytes) : Option Nat := (takeBytes 4 (file.drop 2)).map fun p => decodeLe p.1

/-! ### What the loop reads -/

variable {n closes held : Nat} {r : Restoring}

theorem readFromFile_some {size : Nat} {buff : Bytes}
    (h : takeBytes size file = some (buff, rest)) :
    readFromFile size ⟨file, closes⟩ = (some buff, ⟨rest, closes⟩) := by
  simp [readFromFile, h]

theorem readFromFile_none {size : Nat} (h : takeBytes size file = none) :
    readFromFile size ⟨file, closes⟩ = (none, ⟨file, closes + 1⟩) := by
  simp [readFromFile, h, Stream.cancel]

theorem length_of_takeBytes {size : Nat} {buff : Bytes}
    (h : takeBytes size file = some (buff, rest)) :
    buff.length = size := by
  unfold takeBytes at h
  split at h
  · cases h
  · cases h
    rw [List.length_take]
    omega

/-- A value is read, or the file is closed. -/
inductive ValueOutcome (read : Except Fault (Option (DataSample × Bytes)))
    (tracked : Except Fault (Option DataSample × Stream)) (closes : Nat) : Prop
  | some (s : DataSample) (rest : Bytes) (hread : read = .ok (some (s, rest)))
      (htracked : tracked = .ok (some s, ⟨rest, closes⟩)) : ValueOutcome read tracked closes
  | none (rest : Bytes) (hread : read = .ok none)
      (htracked : tracked = .ok (none, ⟨rest, closes + 1⟩)) : ValueOutcome read tracked closes

theorem readString_outcome {create : Environment → Double → Bytes → Except Fault DataSample}
    {timestamp : Double}
    (hcreate : ∀ value : Bytes, value.length ≤ ioMaxStringValueLen →
      ∃ s, create env timestamp value = .ok s) :
    ValueOutcome (readValue.readText env timestamp file create)
      (readSampleValue.readString env timestamp ⟨file, closes⟩ create) closes := by
  unfold readValue.readText readSampleValue.readString
  cases hlen : takeBytes 4 file with
  | none =>
    rw [readFromFile_none hlen]
    exact .none _ rfl rfl
  | some p =>
    rw [readFromFile_some hlen]
    dsimp only
    split
    · exact .none _ rfl rfl
    · next hle =>
      cases hvalue : takeBytes (decodeLe p.1) p.2 with
      | none =>
        rw [readFromFile_none hvalue]
        exact .none _ rfl rfl
      | some q =>
        rw [readFromFile_some hvalue]
        have hlength := length_of_takeBytes hvalue
        obtain ⟨s, hs⟩ := hcreate q.1 (by omega)
        refine .some s q.2 ?_ ?_ <;> simp only [hs] <;> rfl

theorem readSampleValue_outcome (env : Environment) (t : DataType) (timestamp : Double)
    (file : Bytes) (closes : Nat) : ValueOutcome (readValue env t timestamp file)
      (readSampleValue env t timestamp ⟨file, closes⟩) closes := by
  cases t with
  | trigger => exact .some _ _ rfl rfl
  | boolean =>
    unfold readValue readSampleValue
    cases hvalue : takeBytes 1 file with
    | none =>
      rw [readFromFile_none hvalue]
      exact .none _ rfl rfl
    | some p =>
      rw [readFromFile_some hvalue]
      exact .some _ _ rfl rfl
  | numeric =>
    unfold readValue readSampleValue
    cases hvalue : takeBytes 8 file with
    | none =>
      rw [readFromFile_none hvalue]
      exact .none _ rfl rfl
    | some p =>
      rw [readFromFile_some hvalue]
      exact .some _ _ rfl rfl
  | string =>
    refine readString_outcome fun value hvalue => ?_
    obtain ⟨s, hs, _⟩ := (sat_createString (B := fun _ => True) (fun _ => hvalue)
      timestamp).exists_ok
    exact ⟨s, hs⟩
  | json =>
    refine readString_outcome fun value hvalue => ?_
    obtain ⟨s, hs, _⟩ := (sat_createJson (B := fun _ => True) (fun _ => hvalue) timestamp).exists_ok
    exact ⟨s, hs⟩

/-- The samples of a file have its type, and no units. -/
theorem samplesIn_typed (n : Nat) (file : Bytes) :
    ∀ s ∈ (samplesIn env t n file).1, s.type = t ∧ s.via = [] := by
  induction n generalizing file with
  | zero => simp [samplesIn]
  | succ n ih =>
    unfold samplesIn
    cases hnext : sampleIn env t file with
    | none => simp
    | some p =>
      intro s hs
      rcases List.mem_cons.mp hs with rfl | hs
      · unfold sampleIn at hnext
        split at hnext
        · cases hnext
        · split at hnext
          · next hread =>
            obtain ⟨htype, hvia, _⟩ := (sat_readValue env t _ _).result hread _ hnext
            exact ⟨htype, hvia⟩
          · cases hnext
      · exact ih _ s hs

/-- The file holds that many samples and nothing that could be one more. -/
def Whole (env : Environment) (t : DataType) (n : Nat) (file : Bytes) : Prop :=
  (samplesIn env t n file).1.length = n ∧ (samplesIn env t n file).2.length < 8

instance : Decidable (Whole env t n file) := inferInstanceAs (Decidable (_ ∧ _))

theorem samplesIn_none (n : Nat) (h : sampleIn env t file = none) :
    samplesIn env t (n + 1) file = ([], file) := by
  rw [samplesIn, h]

theorem samplesIn_some (n : Nat) (h : sampleIn env t file = some (s, rest)) :
    samplesIn env t (n + 1) file =
      (s :: (samplesIn env t n rest).1, (samplesIn env t n rest).2) := by
  rw [samplesIn, h]

/-- One round of the loop: the file is closed, or there is one more reference to a sample. -/
inductive RoundOutcome (env : Environment) (t : DataType) (n : Nat) (last : Option DataSample)
    (o : Observation) (file : Bytes) (closes held : Nat) : Prop
  | read (s : DataSample) (rest : Bytes) (hsample : sampleIn env t file = some (s, rest))
      (hloop : readSamplesLoop env t (n + 1) last ⟨o, ⟨file, closes⟩, held⟩ =
        readSamplesLoop env t n (some s)
          ⟨if n = 0 then o else addToBuffer o s, ⟨rest, closes⟩, held + 1⟩) :
      RoundOutcome env t n last o file closes held
  | failed (left : Bytes) (hsample : sampleIn env t file = none)
      (hloop : readSamplesLoop env t (n + 1) last ⟨o, ⟨file, closes⟩, held⟩ =
        .ok (⟨o, ⟨left, closes + 1⟩, held⟩, none)) :
      RoundOutcome env t n last o file closes held

theorem readSamplesLoop_round (env : Environment) (t : DataType) (n : Nat)
    (last : Option DataSample) (o : Observation) (file : Bytes) (closes held : Nat) :
    RoundOutcome env t n last o file closes held := by
  cases hstamp : takeBytes 8 file with
  | none =>
    refine .failed file ?_ ?_
    · rw [sampleIn, hstamp]
    · rw [readSamplesLoop, readFromFile_none hstamp]
      rfl
  | some p =>
    have hround : readSamplesLoop env t (n + 1) last ⟨o, ⟨file, closes⟩, held⟩ =
        readSampleValue env t ⟨BitVec.ofNat 64 (decodeLe p.1)⟩ ⟨p.2, closes⟩ >>= fun value =>
          match value with
          | (none, f) => pure (⟨o, f, held⟩, none)
          | (some s, f) => readSamplesLoop env t n (some s)
            ⟨if n = 0 then o else addToBuffer o s, f, held + 1⟩ := by
      rw [readSamplesLoop, readFromFile_some hstamp]
    rcases readSampleValue_outcome env t ⟨BitVec.ofNat 64 (decodeLe p.1)⟩ p.2 closes with
      ⟨s, rest, hread, htracked⟩ | ⟨left, hread, htracked⟩
    · refine .read s rest ?_ ?_
      · simp only [sampleIn, hstamp, hread]
      · rw [hround, htracked, ok_bind]
    · refine .failed left ?_ ?_
      · simp only [sampleIn, hstamp, hread]
      · rw [hround, htracked, ok_bind]
        rfl

/-- The loop keeps all samples but the newest one that is expected, and hands that one on if the
file ends after it. -/
theorem readSamplesLoop_eq (env : Environment) (t : DataType) (n : Nat) (last : Option DataSample)
    (o : Observation) (file : Bytes) (closes held : Nat) :
    ∃ left, readSamplesLoop env t n last ⟨o, ⟨file, closes⟩, held⟩ = .ok
      (⟨((samplesIn env t n file).1.take (n - 1)).foldl addToBuffer o, ⟨left, closes + 1⟩,
        held + (samplesIn env t n file).1.length⟩,
        if Whole env t n file then
          (last.toList ++ (samplesIn env t n file).1).getLast? else none) := by
  induction n generalizing last o file closes held with
  | zero =>
    unfold readSamplesLoop
    dsimp only
    by_cases hlen : file.length < 8
    · have hend : takeBytes 8 file = none := if_pos hlen
      rw [readFromFile_none hend, if_pos ⟨rfl, hlen⟩]
      refine ⟨file, ?_⟩
      cases last <;> rfl
    · have hmore : takeBytes 8 file = some (file.take 8, file.drop 8) := if_neg hlen
      rw [readFromFile_some hmore, if_neg fun hwhole => hlen hwhole.2]
      exact ⟨_, rfl⟩
  | succ n ih =>
    rcases readSamplesLoop_round env t n last o file closes held with
      ⟨s, rest, hsample, hloop⟩ | ⟨left, hsample, hloop⟩
    · obtain ⟨left, hrest⟩ :=
        ih (some s) (if n = 0 then o else addToBuffer o s) rest closes (held + 1)
      have hsamples := samplesIn_some n hsample
      have hwhole : Whole env t (n + 1) file ↔ Whole env t n rest := by
        unfold Whole
        rw [hsamples]
        simp
      have hkept : ((samplesIn env t n rest).1.take (n - 1)).foldl addToBuffer
          (if n = 0 then o else addToBuffer o s) =
          ((samplesIn env t (n + 1) file).1.take (n + 1 - 1)).foldl addToBuffer o := by
        rw [hsamples]
        cases n with
        | zero => rfl
        | succ n => rfl
      have hheld : held + 1 + (samplesIn env t n rest).1.length =
          held + (samplesIn env t (n + 1) file).1.length := by
        rw [hsamples, List.length_cons]
        omega
      have hnewest : ((some s).toList ++ (samplesIn env t n rest).1).getLast? =
          (last.toList ++ (samplesIn env t (n + 1) file).1).getLast? := by
        rw [hsamples]
        simp [List.getLast?_cons]
      rw [hkept, hheld, hnewest, if_congr hwhole.symm rfl rfl] at hrest
      exact ⟨left, hloop.trans hrest⟩
    · refine ⟨left, hloop.trans ?_⟩
      have hnot : ¬ Whole env t (n + 1) file := by
        unfold Whole
        simp [samplesIn_none n hsample]
      rw [if_neg hnot, samplesIn_none n hsample]
      simp

/-! ### The Observation alone -/

/-- What reading does to the Observation itself. -/
def forgetFile {α : Type} (result : Except Fault (Restoring × α)) :
    Except Fault (Observation × α) :=
  (fun r => (r.1.obs, r.2)) <$> result

theorem readNext_some {next : DataSample → Bytes → Except Fault (Observation × Option DataSample)}
    (h : sampleIn env t file = some (s, rest)) :
    readSamples.readNext env t o file next = next s rest := by
  unfold sampleIn at h
  unfold readSamples.readNext
  cases hstamp : takeBytes 8 file with
  | none => simp [hstamp] at h
  | some p =>
    simp only [hstamp] at h ⊢
    cases hread : readValue env t ⟨BitVec.ofNat 64 (decodeLe p.1)⟩ p.2 with
    | error e => simp [hread] at h
    | ok read =>
      simp only [hread] at h
      subst h
      rfl

theorem readNext_none {next : DataSample → Bytes → Except Fault (Observation × Option DataSample)}
    (h : sampleIn env t file = none) : readSamples.readNext env t o file next = .ok (o, none) := by
  unfold sampleIn at h
  unfold readSamples.readNext
  cases hstamp : takeBytes 8 file with
  | none => rfl
  | some p =>
    simp only [hstamp] at h ⊢
    rcases readSampleValue_outcome env t ⟨BitVec.ofNat 64 (decodeLe p.1)⟩ p.2 0 with
      ⟨s, rest, hread, _⟩ | ⟨_, hread, _⟩
    · simp [hread] at h
    · rw [hread]
      rfl

theorem readSamplesLoop_refines (n : Nat) (last : Option DataSample) (o : Observation)
    (file : Bytes) (closes held : Nat) :
    forgetFile (readSamplesLoop env t (n + 1) last ⟨o, ⟨file, closes⟩, held⟩) =
      readSamples.readNext env t o file (readSamples env t n o) := by
  induction n generalizing last o file closes held with
  | zero =>
    rcases readSamplesLoop_round env t 0 last o file closes held with
      ⟨s, rest, hsample, hloop⟩ | ⟨left, hsample, hloop⟩
    · rw [hloop, readNext_some hsample, readSamplesLoop, readSamples]
      by_cases hlen : rest.length < 8
      · have hend : takeBytes 8 rest = none := if_pos hlen
        rw [readFromFile_none hend, if_pos hlen]
        rfl
      · have hmore : takeBytes 8 rest = some (rest.take 8, rest.drop 8) := if_neg hlen
        rw [readFromFile_some hmore, if_neg hlen]
        rfl
    · rw [hloop, readNext_none hsample]
      rfl
  | succ n ih =>
    rcases readSamplesLoop_round env t (n + 1) last o file closes held with
      ⟨s, rest, hsample, hloop⟩ | ⟨left, hsample, hloop⟩
    · rw [hloop, readNext_some hsample, readSamples, if_neg (Nat.succ_ne_zero n)]
      exact ih _ _ _ _ _
    · rw [hloop, readNext_none hsample]
      rfl

theorem readAllSamples_refines (count : Nat) (o : Observation) (file : Bytes) (closes held : Nat) :
    forgetFile (readAllSamples env ⟨o, ⟨file, closes⟩, held⟩ count) =
      readSamplesFromFile env o file count := by
  cases count with
  | zero => rfl
  | succ n =>
    unfold readAllSamples readSamplesFromFile
    dsimp only
    rw [if_neg (Nat.succ_ne_zero n), ← readSamplesLoop_refines n none o file closes held]
    cases readSamplesLoop env o.bufferedType (n + 1) none ⟨o, ⟨file, closes⟩, held⟩ with
    | error e => rfl
    | ok read =>
      obtain ⟨r, newest⟩ := read
      cases newest with
      | some s => rfl
      | none =>
        show forgetFile (truncateBuffer r.obs 0 >>= _) = (truncateBuffer r.obs 0 >>= _)
        cases truncateBuffer r.obs 0 <;> rfl

theorem readFromFile_one (b : UInt8) :
    readFromFile 1 ⟨b :: file, closes⟩ = (some [b], ⟨file, closes⟩) := by
  simp [readFromFile, takeBytes]

/-- The header is read up to the type, or the file is closed. -/
theorem readBackup_header (env : Environment) (o : Observation) (file : Bytes) :
    (∃ left, fileType file = none ∧ readBackup env o file = .ok (⟨o, ⟨left, 1⟩, 0⟩, [], none) ∧
      obsRestoreContent env o file = .ok (o, [], none)) ∨
    ∃ code t rest, file = 0 :: code :: rest ∧ getDataTypeFromCode code = some t ∧
      fileType file = some (t, rest) := by
  cases file with
  | nil => exact .inl ⟨[], rfl, rfl, rfl⟩
  | cons version file =>
    by_cases hversion : version = 0
    · subst hversion
      cases file with
      | nil => exact .inl ⟨[], rfl, rfl, rfl⟩
      | cons code rest =>
        cases htype : getDataTypeFromCode code with
        | none =>
          refine .inl ⟨rest, ?_, ?_, ?_⟩
          · simp [fileType, htype]
          · simp [readBackup, readFromFile_one, htype, Stream.cancel, pure, Except.pure]
          · simp [obsRestoreContent, htype, pure, Except.pure]
        | some t => exact .inr ⟨code, t, rest, rfl, htype, by simp [fileType, htype]⟩
    · refine .inl ⟨file, ?_, ?_, ?_⟩
      · cases file <;> simp [fileType, hversion]
      · simp [readBackup, readFromFile_one, hversion, Stream.cancel, pure, Except.pure]
      · cases file <;> simp [obsRestoreContent, hversion, pure, Except.pure]

/-- Reading a file does to the Observation what it does without the file handle. -/
theorem readBackup_refines (o : Observation) (file : Bytes) :
    forgetFile (readBackup env o file) = obsRestoreContent env o file := by
  rcases readBackup_header env o file with ⟨left, _, hread, hcontent⟩ |
    ⟨code, t, rest, rfl, htype, _⟩
  · rw [hread, hcontent]
    rfl
  · unfold readBackup obsRestoreContent
    simp only [readFromFile_one, ne_eq, not_true_eq_false, if_false, List.head?_cons,
      Option.bind_some, htype]
    cases hcount : takeBytes 4 rest with
    | none =>
      rw [readFromFile_none hcount]
      rfl
    | some p =>
      rw [readFromFile_some hcount]
      exact readAllSamples_refines ..

/-! ### A new Observation -/

/-- What the header announces is in the buffer. -/
def AllRestored (file : Bytes) (o : Observation) : Prop := announced file = some o.samples.length

/-- The Observation is as it was: settings, buffer, current value and the state of the filters. -/
structure Untouched (x x' : Resource) (o o' : Observation) : Prop where
  settings : SameSettings o o'
  lastPushTime : o'.lastPushTime = o.lastPushTime
  bufferedType : o'.bufferedType = o.bufferedType
  samples : o'.samples = o.samples
  currentValue : x'.currentValue = x.currentValue

/-- A restoration either succeeds or leaves a new Observation as it was, closes the file once and
releases all samples. -/
def FailsSafely (P : Platform) (ctx : ObsContext) (x : Resource) (file : Bytes) : Prop :=
  ∃ x' r o', restoreNew P ctx x file = .ok (x', r) ∧ x'.cls = .observation o' ∧
    (¬ AllRestored file o' → Untouched x x' obsCreate o' ∧ r.file.closes = 1 ∧ r.held = 0)

/-- The file holds the samples that it announces, in the order of their timestamps. -/
def Restorable (env : Environment) (t : DataType) (n : Nat) (file : Bytes) : Prop :=
  n = 0 ∨ Whole env t n file ∧ InOrder olderThan (samplesIn env t n file).1

/-- A file that is refused before anything has been changed, or one that can be restored. -/
def Harmless (env : Environment) (file : Bytes) : Prop :=
  ∀ t rest, fileType file = some (t, rest) →
    match takeBytes 4 rest with
    | none => t = .trigger
    | some (count, samples) => Restorable env t (decodeLe count) samples

theorem samples_foldl_push (l : List DataSample) (o : Observation) :
    (l.foldl addToBuffer o).samples = l.foldl (push olderThan) o.samples := by
  induction l generalizing o with
  | nil => rfl
  | cons s l ih => rw [List.foldl_cons, List.foldl_cons, ih, samples_addToBuffer]

/-- A push to an Observation whose filters have not been set. -/
theorem obsAdmit_new {t₀ : DataType} (P : Platform) (ctx : ObsContext)
    (hset : SameSettings (restoring t₀ n) o) (hb : o.BufferOk)
    (hs : s.type = t) (x : Resource) : ∃ p o', obsAdmit P ctx x o t s = .ok p ∧
      p.res = { x with cls := .observation o' } ∧ o'.samples = bufferAfter o t s ∧
      SameSettings o o' := by
  obtain ⟨⟨o', evs⟩, hproc, _, hsamples, _, hset', _⟩ :
      ∃ r, obsProcessAccepted P ctx o t s = .ok r ∧ _ := Sat.exists_ok (sat_processAccepted hb hs)
  dsimp only at hsamples hset'
  have hnew := hset.trans hset'
  have hextract : obsDoJsonExtraction P ctx.env o t s = .ok (some (t, s)) :=
      if_pos hset.jsonExtraction
  have htransform : obsApplyTransform P ctx.env o' t s = .ok s := by
    unfold obsApplyTransform
    rw [show o'.transformType = .none from hnew.transformType]
    rfl
  have haccept : obsShouldAccept P ctx o' x.currentValue x.overrideValue.isSome t s = _ :=
    shouldAccept_new hnew hs x.currentValue x.overrideValue.isSome
  refine ⟨⟨{ x with
    cls := .observation { o' with lastPushTime := getRelativeTimeMs ctx.env } }, evs,
    some (t, s)⟩, { o' with lastPushTime := getRelativeTimeMs ctx.env }, ?_, rfl, ?_, ?_⟩
  · unfold obsAdmit
    simp only [hextract, hproc, htransform, haccept, ok_bind]
    rfl
  · exact hsamples
  · exact hset'.trans (by constructor <;> rfl)

theorem bufferCore_restoring (t : DataType) (n : Nat) : (restoring t n).BufferCore :=
  ⟨rfl, List.isChain_nil, fun _ hs => absurd hs List.not_mem_nil⟩

/-- What reading that many samples into a new Observation comes to. -/
theorem readAllSamples_new (hn : 0 < n) (env : Environment) (t : DataType) (file : Bytes) :
    (Whole env t n file ∧ ∃ front s left, (samplesIn env t n file).1 = front ++ [s] ∧
      readAllSamples env ⟨restoring t n, ⟨file, 0⟩, 0⟩ n =
        .ok (⟨front.foldl addToBuffer (restoring t n), ⟨left, 1⟩, n - 1⟩, [], some s)) ∨
    (¬ Whole env t n file ∧ ∃ o left evs,
      readAllSamples env ⟨restoring t n, ⟨file, 0⟩, 0⟩ n =
        .ok (⟨o, ⟨left, 1⟩, (samplesIn env t n file).1.length⟩, evs, none) ∧
      SameSettings (restoring t n) o ∧ o.samples = []) := by
  obtain ⟨left, hloop⟩ := readSamplesLoop_eq env t n none (restoring t n) file 0 0
  have htype : (restoring t n).bufferedType = t := rfl
  unfold readAllSamples
  dsimp only
  rw [if_neg (by omega), htype, hloop, ok_bind]
  dsimp only
  by_cases hwhole : Whole env t n file
  · refine .inl ⟨hwhole, ?_⟩
    have hlength := hwhole.1
    rw [if_pos hwhole]
    generalize (samplesIn env t n file).1 = l at hlength
    have hne : l ≠ [] := by
      rintro rfl
      simp at hlength
      omega
    have hsplit := (List.dropLast_append_getLast hne).symm
    have hfront : l.take (n - 1) = l.dropLast := by rw [List.dropLast_eq_take, hlength]
    refine ⟨_, _, left, hsplit, ?_⟩
    simp only [Option.toList_none, List.nil_append, List.getLast?_eq_some_getLast hne, hfront,
      Nat.zero_add, hlength]
    rfl
  · refine .inr ⟨hwhole, ?_⟩
    rw [if_neg hwhole]
    have htyped : ∀ s ∈ (samplesIn env t n file).1.take (n - 1), s.type = t :=
      fun s hs => (samplesIn_typed n file s (List.mem_of_mem_take hs)).1
    have hcore := bufferCore_foldl (bufferCore_restoring t n) htyped
    obtain ⟨hset, _⟩ := sameSettings_foldl (restoring t n) ((samplesIn env t n file).1.take (n - 1))
    obtain ⟨⟨o, evs⟩, htruncate, refCount, ho⟩ :=
      (sat_truncateBuffer (B := fun _ => True) hcore.count_eq 0).exists_ok
    dsimp only at ho
    refine ⟨o, left, evs, ?_, ?_, ?_⟩
    · simp only [htruncate, ok_bind, Nat.zero_add]
      rfl
    · rw [ho]
      exact hset.trans (by constructor <;> rfl)
    · rw [ho]
      simp [Observation.samples, BoundedQueue.keepLast]

/-- A whole file fills the buffer of a new Observation just if its samples come in order. -/
theorem restore_whole {front : List DataSample} (P : Platform) (ctx : ObsContext) (hn : 0 < n)
    (hlt : n < 2 ^ 32)
    (hwhole : Whole env t n file) (hsplit : (samplesIn env t n file).1 = front ++ [s])
    (x : Resource) :
    ∃ p o', obsAdmit P ctx { x with cls := .observation (front.foldl addToBuffer (restoring t n)) }
        (front.foldl addToBuffer (restoring t n)) t { s with via := [] } = .ok p ∧
      p.res.cls = .observation o' ∧ o'.maxCount = n ∧
      (o'.samples.length = n ↔ InOrder olderThan (samplesIn env t n file).1) := by
  have htyped : ∀ s' ∈ front ++ [s], s'.type = t ∧ s'.via = [] := hsplit ▸ samplesIn_typed n file
  have hfront : ∀ s' ∈ front, s'.type = t := fun s' hs' => (htyped s' (by simp [hs'])).1
  have hlength : front.length + 1 = n := by
    have := hwhole.1
    rw [hsplit] at this
    simpa using this
  have hcore := bufferCore_foldl (bufferCore_restoring t n) hfront
  obtain ⟨hset, htype⟩ := sameSettings_foldl (restoring t n) front
  have hsamples := samples_foldl_push front (restoring t n)
  have hle := length_foldl_push_le olderThan front (restoring t n).samples
  rw [← hsamples] at hle
  generalize front.foldl addToBuffer (restoring t n) = o at *
  have hmax : o.maxCount = n := hset.maxCount
  have hcount : o.count ≤ n - 1 := by
    rw [hcore.count_eq, ← length_samples]
    have : (restoring t n).samples.length = 0 := rfl
    omega
  have hvia : ({ s with via := [] } : DataSample) = s := by
    rw [← (htyped s (by simp)).2]
  rw [hvia]
  obtain ⟨p, o', hadmits, hres, hafter, hset'⟩ :=
    obsAdmit_new P ctx hset ⟨hcore, by omega, by omega⟩ (htyped s (by simp)).1
      { x with cls := .observation o }
  refine ⟨p, o', hadmits, by rw [hres], hset'.maxCount.trans hmax, ?_⟩
  have hfilled : push olderThan o.samples s = (front ++ [s]).foldl (push olderThan) [] := by
    rw [List.foldl_append, hsamples]
    rfl
  have hbound := length_foldl_push_le olderThan (front ++ [s]) []
  have hall := length_foldl_push_iff olderThan (q := []) (l := front ++ [s]) List.isChain_nil
  rw [List.length_append, List.length_singleton, hlength] at hbound hall
  rw [hafter, bufferAfter, if_neg (by omega), if_pos (by rw [htype]; rfl), hfilled, hmax, hsplit]
  rw [length_keepLast, Nat.min_eq_left (by simpa using hbound)]
  simpa using hall

theorem readBackup_type {code : UInt8} (env : Environment) (rest : Bytes)
    (htype : getDataTypeFromCode code = some t) :
    readBackup env obsCreate (0 :: code :: rest) = match takeBytes 4 rest with
      | none => .ok (⟨{ obsCreate with bufferedType := t }, ⟨rest, 1⟩, 0⟩, [], none)
      | some (count, samples) =>
        readAllSamples env ⟨restoring t (decodeLe count), ⟨samples, 0⟩, 0⟩ (decodeLe count) := by
  unfold readBackup
  simp only [readFromFile_one, ne_eq, not_true_eq_false, if_false, List.head?_cons,
    Option.bind_some, htype]
  cases hcount : takeBytes 4 rest with
  | none =>
    rw [readFromFile_none hcount]
    rfl
  | some p =>
    rw [readFromFile_some hcount]
    rfl

/-- A file of whose type nothing is known, or one that ends before the count. -/
theorem restoreNew_unread {f : Stream}
    (hread : readBackup ctx.env obsCreate file = .ok (⟨o, f, 0⟩, [], none)) :
    restoreNew P ctx x file = .ok ({ x with cls := .observation o }, ⟨o, f, 0⟩) := by
  unfold restoreNew
  rw [hread]
  rfl

/-- A restoration of that many samples, with what it does to the file and to references. -/
inductive Restoration (P : Platform) (ctx : ObsContext) (x : Resource) (file : Bytes) (t : DataType)
    (n : Nat) (samples : Bytes) : Prop
  | empty (f : Stream) (hn : n = 0) (hf : f.closes = 0)
      (hrestore : restoreNew P ctx x file =
        .ok ({ x with cls := .observation (restoring t 0) }, ⟨restoring t 0, f, 0⟩))
  | whole (x' : Resource) (r : Restoring) (o' : Observation) (hn : 0 < n)
      (hwhole : Whole ctx.env t n samples) (hrestore : restoreNew P ctx x file = .ok (x', r))
      (ho' : x'.cls = .observation o') (hmax : o'.maxCount = n)
      (hall : o'.samples.length = n ↔ InOrder olderThan (samplesIn ctx.env t n samples).1)
      (hcloses : r.file.closes = 1) (hheld : r.held = n - 1)
  | broken (r : Restoring) (hn : 0 < n) (hwhole : ¬ Whole ctx.env t n samples)
      (hrestore : restoreNew P ctx x file = .ok ({ x with cls := .observation r.obs }, r))
      (hmax : r.obs.maxCount = n) (hempty : r.obs.samples = []) (hcloses : r.file.closes = 1)
      (hheld : r.held = (samplesIn ctx.env t n samples).1.length)

theorem restoreNew_counted {n : Nat} {samples : Bytes} (hlt : n < 2 ^ 32)
    (hread : readBackup ctx.env obsCreate file =
      readAllSamples ctx.env ⟨restoring t n, ⟨samples, 0⟩, 0⟩ n) (x : Resource) :
    Restoration P ctx x file t n samples := by
  rcases Nat.eq_zero_or_pos n with rfl | hn
  · exact .empty ⟨samples, 0⟩ rfl rfl (restoreNew_unread hread)
  · rcases readAllSamples_new hn ctx.env t samples with
      ⟨hwhole, front, s, left, hsplit, hall⟩ | ⟨hwhole, o, left, evs, hall, hset, hempty⟩
    · obtain ⟨p, o', hadmits, hres, hmax, horder⟩ :=
        restore_whole P ctx hn hlt hwhole hsplit x
      refine .whole p.res ⟨front.foldl addToBuffer (restoring t n), ⟨left, 1⟩, n - 1⟩ o' hn hwhole
        ?_ hres hmax horder rfl rfl
      unfold restoreNew
      rw [hread, hall, ok_bind]
      dsimp only
      rw [(sameSettings_foldl (restoring t n) front).2]
      show (obsAdmit P ctx _ _ t _ >>= _) = _
      rw [hadmits]
      rfl
    · refine .broken ⟨o, ⟨left, 1⟩, _⟩ hn hwhole ?_ hset.maxCount hempty rfl rfl
      unfold restoreNew
      rw [hread, hall]
      rfl

theorem not_untouched {x' : Resource} (hn : 0 < n) (hmax : o'.maxCount = n) :
    ¬ Untouched x x' obsCreate o' := by
  intro h
  have : o'.maxCount = 0 := h.settings.maxCount
  omega

theorem failsSafely_refused {f : Stream} {held : Nat}
    (hrestore : restoreNew P ctx x file =
      .ok ({ x with cls := .observation obsCreate }, ⟨obsCreate, f, held⟩))
    (hcloses : f.closes = 1) (hheld : held = 0) : FailsSafely P ctx x file := by
  refine ⟨_, _, _, hrestore, rfl, fun _ => ⟨?_, hcloses, hheld⟩⟩
  exact ⟨by constructor <;> rfl, rfl, rfl, rfl, rfl⟩

/-- A file that ends before the count sets the type. -/
theorem failsSafely_typed (hnone : announced file = none)
    (hread : readBackup ctx.env obsCreate file =
      .ok (⟨{ obsCreate with bufferedType := t }, ⟨rest, 1⟩, 0⟩, [], none)) :
    FailsSafely P ctx x file ↔ t = .trigger := by
  constructor
  · rintro ⟨x', r, o', hrestore, ho', hsafe⟩
    cases (restoreNew_unread hread).symm.trans hrestore
    cases ho'
    have hnot : ¬ AllRestored file { obsCreate with bufferedType := t } := by
      simp [AllRestored, hnone]
    exact (hsafe hnot).1.bufferedType
  · rintro rfl
    exact failsSafely_refused (restoreNew_unread hread) rfl rfl

theorem Restoration.safely_iff {samples : Bytes} (h : Restoration P ctx x file t n samples)
    (hannounced : announced file = some n) :
    FailsSafely P ctx x file ↔ Restorable ctx.env t n samples := by
  have hall (o : Observation) : AllRestored file o ↔ o.samples.length = n := by
    simp [AllRestored, hannounced, eq_comm]
  cases h with
  | empty f hn hf hrestore =>
    refine iff_of_true ⟨_, _, _, hrestore, rfl, fun hnot => ?_⟩ (.inl hn)
    exact absurd ((hall (restoring t 0)).mpr hn.symm) hnot
  | whole x' r o' hn hwhole hrestore ho' hmax horder hcloses hheld =>
    constructor
    · rintro ⟨x₁, r₁, o₁, hrestore₁, ho₁, hsafe⟩
      cases hrestore.symm.trans hrestore₁
      cases ho'.symm.trans ho₁
      refine .inr ⟨hwhole, ?_⟩
      by_contra hnot
      have hfailed := hsafe fun hrestored => hnot (horder.mp ((hall _).mp hrestored))
      exact not_untouched hn hmax hfailed.1
    · rintro (hzero | ⟨_, hinOrder⟩)
      · omega
      · refine ⟨x', r, o', hrestore, ho', fun hnot => ?_⟩
        exact absurd ((hall _).mpr (horder.mpr hinOrder)) hnot
  | broken r hn hwhole hrestore hmax hempty hcloses hheld =>
    refine iff_of_false ?_ ?_
    · rintro ⟨x₁, r₁, o₁, hrestore₁, ho₁, hsafe⟩
      cases hrestore.symm.trans hrestore₁
      cases ho₁
      refine not_untouched hn hmax (hsafe fun hrestored => ?_).1
      have hlength := (hall _).mp hrestored
      rw [hempty, List.length_nil] at hlength
      omega
    · rintro (hzero | ⟨hwhole', _⟩)
      · omega
      · exact hwhole hwhole'

/-- The file is closed once, unless no samples are announced, and a failure forgets to release
what it has read. -/
theorem Restoration.bookkeeping {samples : Bytes} (h : Restoration P ctx x file t n samples) :
    ∃ x' r, restoreNew P ctx x file = .ok (x', r) ∧ (n = 0 → r.file.closes = 0) ∧
      (0 < n → r.file.closes = 1) ∧
      (0 < n → ¬ Whole ctx.env t n samples →
        r.held = (samplesIn ctx.env t n samples).1.length) := by
  cases h with
  | empty f hn hf hrestore =>
    exact ⟨_, _, hrestore, fun _ => hf, fun h => by omega, fun h => by omega⟩
  | whole x' r o' hn hwhole hrestore ho' hmax horder hcloses hheld =>
    exact ⟨_, _, hrestore, fun h => by omega, fun _ => hcloses, fun _ hnot => absurd hwhole hnot⟩
  | broken r hn hwhole hrestore hmax hempty hcloses hheld =>
    exact ⟨_, _, hrestore, fun h => by omega, fun _ => hcloses, fun _ _ => hheld⟩

/-- A new Observation comes out of a failed restoration as it was just if the file is refused
before anything has been changed; every sample that has been read then stays allocated. -/
theorem failsSafely_iff (P : Platform) (ctx : ObsContext) (x : Resource) (file : Bytes) :
    (FailsSafely P ctx x file ↔ Harmless ctx.env file) ∧
    ∀ t rest count samples, fileType file = some (t, rest) →
      takeBytes 4 rest = some (count, samples) →
      ∃ x' r, restoreNew P ctx x file = .ok (x', r) ∧ (decodeLe count = 0 → r.file.closes = 0) ∧
        (0 < decodeLe count → r.file.closes = 1) ∧
        (0 < decodeLe count → ¬ Whole ctx.env t (decodeLe count) samples →
          r.held = (samplesIn ctx.env t (decodeLe count) samples).1.length) := by
  rcases readBackup_header ctx.env obsCreate file with
    ⟨left, hnone, hread, _⟩ | ⟨code, t, rest, rfl, htype, hsome⟩
  · refine ⟨iff_of_true (failsSafely_refused (restoreNew_unread hread) rfl rfl) ?_, ?_⟩
    · intro t rest h
      cases hnone.symm.trans h
    · intro t rest count samples h
      cases hnone.symm.trans h
  · have hread := readBackup_type ctx.env rest htype
    have hharmless : Harmless ctx.env (0 :: code :: rest) ↔
        match takeBytes 4 rest with
        | none => t = .trigger
        | some (count, samples) => Restorable ctx.env t (decodeLe count) samples := by
      unfold Harmless
      rw [hsome]
      refine ⟨fun h => h t rest rfl, ?_⟩
      rintro h _ _ ⟨⟩
      exact h
    rw [hharmless]
    cases hcount : takeBytes 4 rest with
    | none =>
      rw [hcount] at hread
      refine ⟨failsSafely_typed (by simp [announced, hcount]) hread, ?_⟩
      intro t' rest' count samples h hcount'
      cases hsome.symm.trans h
      cases hcount.symm.trans hcount'
    | some p =>
      rw [hcount] at hread
      have hlt : decodeLe p.1 < 2 ^ 32 := by
        have := decodeLe_lt p.1
        rw [length_of_takeBytes hcount] at this
        omega
      have hrestoration := restoreNew_counted (P := P) hlt hread x
      refine ⟨hrestoration.safely_iff (by simp [announced, hcount]), ?_⟩
      intro t' rest' count samples h hcount'
      cases hsome.symm.trans h
      cases hcount.symm.trans hcount'
      exact hrestoration.bookkeeping

/-- Two numbers are announced, one is there. -/
def truncatedFile : Bytes :=
  [0, 0x6e, 2, 0, 0, 0, 0, 0, 0, 0, 0, 0, 0xf0, 0x3f, 0, 0, 0, 0, 0, 0, 0xf0, 0x3f]

theorem failsSafely_iff_truncated : ∃ x' r,
    restoreNew smallPlatform ⟨smallEnvironment, none, .trigger⟩ (resCreateObservation 0)
      truncatedFile = .ok (x', r) ∧ r.file.closes = 1 ∧ r.held = 1 := by
  obtain ⟨x', r, hrestore, _, hcloses, hheld⟩ :=
    (failsSafely_iff smallPlatform ⟨smallEnvironment, none, .trigger⟩ (resCreateObservation 0)
      truncatedFile).2 .numeric _ _ _ rfl rfl
  exact ⟨x', r, hrestore, hcloses (by decide), hheld (by decide) (by decide +kernel)⟩

/-- The maximum count has changed. -/
def growsToTwo (result : Resource × Restoring) : Bool :=
  match result.1.cls with
  | .observation o => decide (o.maxCount = 2) && o.samples.isEmpty
  | _ => false

/-- The truncated file leaves a buffer size of 2 and no samples. -/
theorem failsSafely_truncated : ¬ FailsSafely smallPlatform ⟨smallEnvironment, none, .trigger⟩
    (resCreateObservation 0) truncatedFile := by
  have htest : passes (restoreNew smallPlatform ⟨smallEnvironment, none, .trigger⟩
      (resCreateObservation 0) truncatedFile) growsToTwo = true := by decide +kernel
  obtain ⟨result, hresult, hgrows⟩ := passes_iff.mp htest
  rintro ⟨x', r, o', hrestore, ho', hsafe⟩
  cases hresult.symm.trans hrestore
  simp only [growsToTwo, ho', Bool.and_eq_true, decide_eq_true_eq, List.isEmpty_iff] at hgrows
  refine not_untouched (by omega) hgrows.1 (hsafe fun hrestored => ?_).1
  rw [AllRestored, hgrows.2] at hrestored
  cases hrestored

end MangOH.DataHub
