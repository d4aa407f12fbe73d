import MangOH.DataHub.Reads

/-! Samples are read at the types they were created with, as long as a buffer is read only while it
holds samples of its resource's current type. -/
namespace MangOH.DataHub

open Outcome

variable {P : Platform} {ctx : ObsContext} {o o' : Observation} {s : DataSample} {t : DataType}
  {op : ReadOperation} {positions : List BufferEntry} {evs : List ObsEvent} {B : Fault → Prop}
  {h h' : Hub} {r : ResRef} {x : Resource}

/-! ### Samples are of the type of the buffer they are read from -/

def BufferTyped : ObsEvent → Prop
  | .loading _ bufferedType sample => sample.type = bufferedType
  | .backingUp _ bufferedType samples => ∀ s ∈ samples, s.type = bufferedType
  | _ => True

def AllTyped (evs : List ObsEvent) : Prop := ∀ ev ∈ evs, BufferTyped ev

theorem allTyped_nil : AllTyped [] := fun _ hev => absurd hev List.not_mem_nil

theorem AllTyped.append {evs' : List ObsEvent} (h : AllTyped evs) (h' : AllTyped evs') :
    AllTyped (evs ++ evs') := by
  intro ev hev
  rcases List.mem_append.mp hev with hev | hev
  · exact h ev hev
  · exact h' ev hev

theorem allTyped_truncateLoop (k : Nat) (o : Observation) :
    Returns (truncateLoop k o) fun p => AllTyped p.2 := by
  induction k generalizing o with
  | zero => exact allTyped_nil
  | succ k ih =>
    unfold truncateLoop popOldest
    split
    · exact id
    · show Returns (truncateLoop k _ >>= _) _
      refine (ih _).bind fun p hp ev hev => ?_
      rcases List.mem_cons.mp hev with rfl | hev
      · exact trivial
      · exact hp ev hev

theorem allTyped_truncateBuffer (o : Observation) (n : Nat) :
    Returns (truncateBuffer o n) fun p => AllTyped p.2 := allTyped_truncateLoop _ o

theorem allTyped_backup (h : ∀ s ∈ o.samples, s.type = o.bufferedType) :
    Returns (backup P ctx o) fun p => AllTyped p.2 := by
  have hstart : AllTyped [.backingUp ctx.currentType o.bufferedType o.samples] := by
    intro ev hev
    rw [List.mem_singleton.mp hev]
    exact h
  unfold backup
  split
  · exact hstart
  · split
    · exact hstart
    · refine Sat.bind (Q := fun _ => True) (Returns.of_ok fun _ _ => trivial) fun content _ => ?_
      cases content with
      | none => exact hstart
      | some content =>
        refine AllTyped.append hstart fun ev hev => ?_
        rw [List.mem_singleton.mp hev]
        exact trivial

theorem allTyped_save (h : ∀ s ∈ o.samples, s.type = o.bufferedType) :
    Returns (obsProcessAccepted.save P ctx o) fun p => AllTyped p.2 := by
  unfold obsProcessAccepted.save
  split
  · exact allTyped_nil
  · split
    · exact allTyped_backup h
    · exact allTyped_nil

theorem allTyped_deleteBackup : AllTyped (deleteBackup P ctx) := by
  unfold deleteBackup
  split
  · split
    · intro ev hev
      rw [List.mem_singleton.mp hev]
      exact trivial
    · exact allTyped_nil
  · exact allTyped_nil

theorem allTyped_process (h : o.BufferOk) (hs : s.type = t) :
    Returns (obsProcessAccepted P ctx o t s) fun p => AllTyped p.2 := by
  have hretype : Returns (obsProcessAccepted.retype t o) fun p => AllTyped p.2 := by
    unfold obsProcessAccepted.retype
    split
    · exact allTyped_nil
    · exact (allTyped_truncateBuffer o 0).bind fun _ hp => hp
  unfold obsProcessAccepted
  split
  · exact allTyped_nil
  · refine ((sat_retype h.toBufferCore t).and hretype).bind ?_
    rintro ⟨o₁, e₁⟩ ⟨⟨hc₁, ht₁, _⟩, he₁⟩
    dsimp only at hc₁ ht₁ he₁ ⊢
    have hc := hc₁.add (s := s) (by rw [hs, ht₁])
    refine ((sat_truncateBuffer hc.count_eq _).and (allTyped_truncateBuffer _ _)).bind ?_
    rintro ⟨_, e₂⟩ ⟨⟨rc, rfl⟩, he₂⟩
    dsimp only at he₂ ⊢
    refine (allTyped_save ?_).bind fun _ he₃ => he₁.append (he₂.append he₃)
    exact (hc.keepLast _ rc).typed

theorem allTyped_setBufferMaxCount (o : Observation) (count : UInt32) :
    Returns (obsSetBufferMaxCount P ctx o count) fun p => AllTyped p.2 := by
  unfold obsSetBufferMaxCount
  split
  · exact allTyped_nil
  · have hdis : AllTyped (if count.toNat = 0 ∧ 0 < o.backupPeriod then
        disableBackups P ctx o else (o, [])).2 := by
      split
      · exact allTyped_deleteBackup
      · exact allTyped_nil
    exact (allTyped_truncateBuffer _ _).bind fun _ hp => hdis.append hp

theorem allTyped_setBufferBackupPeriod (h : ∀ s ∈ o.samples, s.type = o.bufferedType)
    (seconds : UInt32) :
    Returns (obsSetBufferBackupPeriod P ctx o seconds) fun p => AllTyped p.2 := by
  unfold obsSetBufferBackupPeriod
  split
  · exact allTyped_nil
  · dsimp only
    split
    · exact allTyped_nil
    · split
      · exact allTyped_deleteBackup
      · split
        · exact allTyped_nil
        · split
          · exact allTyped_backup h
          · exact allTyped_nil

theorem Loads.allTyped (hl : Loads t o evs) (h : ∀ s ∈ o.samples, s.type = o.bufferedType) :
    AllTyped evs := by
  intro ev hev
  obtain ⟨s, hs, rfl⟩ := hl ev hev
  exact h s hs

theorem ReadStep.allTyped {c : Continued} (hs : ReadStep P t o op positions c)
    (h : ∀ s ∈ o.samples, s.type = o.bufferedType) : AllTyped c.events := by
  have hdone : ∀ op result, AllTyped [.readDone op result] := by
    intro op result ev hev
    rw [List.mem_singleton.mp hev]
    exact trivial
  cases hs with
  | going _ _ _ _ loads => exact loads.allTyped h
  | ended _ _ _ loads => exact (loads.allTyped h).append (hdone _ _)
  | failed _ _ _ loads => exact (loads.allTyped h).append (hdone _ _)

theorem allTyped_step (hb : o.BufferOk) (h : ReadsOk o) (hs : ObsStep P o evs o') :
    AllTyped evs := by
  cases hs with
  | process ctx t s hs hp => exact (allTyped_process hb hs).result hp
  | accept => exact allTyped_nil
  | settings => exact allTyped_nil
  | transform ty ht => exact (allTyped_truncateBuffer _ 0).result ht
  | maxCount ctx count hc => exact (allTyped_setBufferMaxCount o count).result hc
  | backupPeriod ctx seconds hp => exact (allTyped_setBufferBackupPeriod hb.typed seconds).result hp
  | backup ctx hbk => exact (allTyped_backup hb.typed).result hbk
  | startRead ctx id hid startAfter script hr =>
    obtain ⟨op, c, rc, _, _, _, hstep, heq⟩ :=
      (readBufferJson_step h hid startAfter script).result hr
    cases heq
    exact hstep.allTyped hb.typed
  | fdEvent dataType id hangUp script hf =>
    rcases (fdEventHandler_step h id hangUp script).result hf with
      heq | ⟨before, op, after, c, _, hstep, heq⟩
    · cases heq
      exact allTyped_nil
    · cases heq
      exact hstep.allTyped hb.typed

/-- A run keeps the buffer and the reads in order, and reads samples of the buffer's type. -/
theorem allTyped_run (hb : o.BufferOk) (h : ReadsOk o) (hrun : ObsRun P o evs o')
    (hfew : FewReaders evs) : AllTyped evs := by
  induction hrun with
  | refl => exact allTyped_nil
  | step hrun hs ih =>
    have h₁ := (readsOk_run h hrun hfew.left).1
    exact (ih hfew.left).append (allTyped_step (hrun.bufferOk hb) h₁ hs)

theorem allTyped_restored (env : Environment) (content : Bytes) :
    Returns (obsRestoreContent env obsCreate content) fun p => AllTyped p.2.1 := by
  have hread : ∀ o file count,
      Returns (readSamplesFromFile env o file count) fun p => AllTyped p.2.1 := by
    intro o file count
    unfold readSamplesFromFile
    split
    · exact allTyped_nil
    · refine Sat.bind (Q := fun _ => True) (Returns.of_ok fun _ _ => trivial) fun read _ => ?_
      split
      · exact allTyped_nil
      · exact (allTyped_truncateBuffer _ 0).bind fun _ hp => hp
  unfold obsRestoreContent
  split
  · split
    · exact allTyped_nil
    · split
      · exact allTyped_nil
      · dsimp only
        split
        · exact allTyped_nil
        · exact hread _ _ _
  · exact allTyped_nil

/-! ### Reads of a buffer of the resource's current type -/

/-- No fault, as long as the samples are of the type at which the read loads them. -/
theorem sat_continueReadOp (script : List WriteResult)
    (h : Held o (op.nextEntryPtr.toList ++ positions)) (hord : op.Ordered) (hout : op.OutputOk)
    (ht : ∀ s ∈ o.samples, s.type = t) :
    Sat B (continueReadOp P t script o op) fun _ => True := by
  induction script generalizing o op with
  | nil => exact trivial
  | cons result script ih =>
    cases result with
    | again => exact trivial
    | failed => exact trivial
    | wrote n =>
      unfold continueReadOp
      have hlen := pendingBytes_length hout
      have hnext : Sat B (nextState P t o op (min (n + 1) (pendingBytes op).length))
          fun _ => True := by
        unfold nextState
        dsimp only
        split
        · exact trivial
        · split
          · refine Sat.bind (Q := fun _ => True) ?_ fun _ _ => trivial
            unfold loadReadOpBuffer
            refine sat_loadLoop _ h ht ?_
            exact Nat.lt_of_le_of_lt (remaining_le _ _) (by omega)
          · exact trivial
        · exact trivial
        · exact trivial
      have hstep := nextState_step (P := P) (t := t) h hord hout
        (n := min (n + 1) (pendingBytes op).length) (by omega) (by omega)
      refine hnext.and_result.bind ?_
      rintro c ⟨_, hc⟩
      have hread := hstep.result hc
      cases hread with
      | going hid held ordered output =>
        exact (ih held ordered output ht).bind fun _ _ => trivial
      | ended => exact trivial
      | failed => exact trivial

theorem sat_fdEventHandler_typed (h : ReadsOk o) (ht : ∀ s ∈ o.samples, s.type = t) (id : Nat)
    (hangUp : Bool) (script : List WriteResult) :
    Sat B (readOpFdEventHandler P t o id hangUp script) fun _ => True := by
  unfold readOpFdEventHandler
  split
  · exact trivial
  · next op hfind =>
    obtain ⟨before, after, hl⟩ := List.append_of_mem (List.mem_of_find?_eq_some hfind)
    have hheld : Held o (op.nextEntryPtr.toList ++ positionsOf (before ++ after)) := by
      refine h.held.perm ?_
      rw [hl]
      simpa using (positionsOf_perm before after (some op)).symm
    obtain ⟨hord, hout⟩ := h.reads op (by simp [hl])
    exact (sat_continueReadOp _ hheld hord hout ht).bind fun _ _ => trivial

theorem sat_readBufferJson_typed (h : ReadsOk o) (ht : ∀ s ∈ o.samples, s.type = ctx.currentType)
    (id : Nat) (startAfter : Double) (script : List WriteResult) :
    Sat B (obsReadBufferJson P ctx o id startAfter script) fun _ => True := by
  unfold obsReadBufferJson
  dsimp only
  have hheld : Held (o.hold (findAfter P ctx.env o startAfter))
      ((findAfter P ctx.env o startAfter).toList ++ positionsOf o.readOpList) := by
    cases hfind : findAfter P ctx.env o startAfter with
    | none => exact h.held
    | some e => exact held_addRef h.held (findAfter_mem hfind)
  obtain ⟨rc, hobs⟩ := hold_frame o (findAfter P ctx.env o startAfter)
  rw [hobs] at hheld ⊢
  generalize findAfter P ctx.env o startAfter = start at hheld ⊢
  unfold loadReadOpBuffer
  have hload : Sat B (loadLoop P ctx.currentType (o.sampleList.length + 2) { o with refCount := rc }
      ⟨id, start, .start, [], 0, [], []⟩) fun _ => True :=
    sat_loadLoop _ hheld ht
      (Nat.lt_of_le_of_lt (remaining_le _ _) (by dsimp only; omega))
  refine hload.and_result.bind ?_
  rintro l ⟨_, hl⟩
  have hout := (loadLoop_outcome _ _ hheld
    ⟨List.Pairwise.nil, fun e he => absurd he List.not_mem_nil⟩).result hl
  obtain ⟨_, _, _, found⟩ := l
  obtain ⟨⟨rc₁, rfl⟩, ⟨next, wb, em, rfl⟩, hheld₁, hord, _, hfound, hnot, _⟩ := hout
  dsimp only at hheld₁ hord hfound hnot ⊢
  have hout : ReadOperation.OutputOk ⟨id, next, .start, wb, 0, em, []⟩ := by
    unfold ReadOperation.OutputOk
    refine ⟨rfl, rfl, ?_⟩
    cases found with
    | true => exact .inr (hfound rfl)
    | false => exact .inl (hnot rfl)
  refine Sat.bind (Q := fun _ => True) ?_ fun _ _ => trivial
  exact sat_continueReadOp script (hheld₁.congr rfl rfl rfl) hord hout ht

theorem sat_readBufferSample {startAfter : Double}
    {read : DataSample → Except Fault (Option Argument)} {dataType : Option DataType}
    (hread : (dataType.isSome → dataType = some x.currentType) → ∀ s ∈ o.samples,
      Sat B (read s) fun _ => True) :
    Sat B (readBufferSample P h x o startAfter read dataType) fun _ => True := by
  unfold readBufferSample
  split
  · exact trivial
  · split
    · exact trivial
    · next hne =>
      have htype : dataType.isSome → dataType = some x.currentType := by
        intro hsome
        by_contra hcon
        exact hne ⟨hsome, hcon⟩
      split
      · exact trivial
      · next s hs =>
        obtain ⟨e, he, rfl⟩ := Option.map_eq_some_iff.mp hs
        have hmem := mem_samples (findAfter_mem he)
        exact (hread htype _ hmem).bind fun _ _ => trivial

theorem sat_answerQuery (hb : o.BufferOk) (query : BufferQuery)
    (ht : query.readsCurrentType = true → ∀ s ∈ o.samples, s.type = x.currentType) :
    Sat Bad (answerQuery P h x o query) fun _ => True := by
  cases query with
  | timestamp startAfter => exact sat_readBufferSample fun _ _ _ => trivial
  | boolean startAfter =>
    refine sat_readBufferSample fun hsome s hs => ?_
    have htype := (ht rfl s hs).trans (Option.some.inj (hsome rfl)).symm
    exact (sat_getBoolean htype).bind fun _ _ => trivial
  | numeric startAfter =>
    refine sat_readBufferSample fun hsome s hs => ?_
    have htype := (ht rfl s hs).trans (Option.some.inj (hsome rfl)).symm
    exact (sat_getNumeric htype).bind fun _ _ => trivial
  | string startAfter valueSize =>
    exact sat_readBufferSample fun _ s hs =>
      (sat_convertToString (ht rfl s hs) valueSize).bind fun _ _ => trivial
  | json startAfter valueSize =>
    exact sat_readBufferSample fun _ s hs =>
      (sat_convertToJson (ht rfl s hs) valueSize).bind fun _ _ => trivial
  | min | max | mean | stdDev =>
    refine Sat.bind (Q := fun _ => True) ?_ fun _ _ => trivial
    exact ((sat_bufferedNumbers hb.typed _).weaken notFatal_of_bad).bind fun _ _ => trivial

/-! ### The hub -/

/-- All samples that an event reads are read at the types they were created with. -/
def ObsEvent.ReadsOwnType : ObsEvent → Prop
  | .loading dataType _ sample => sample.type = dataType
  | .backingUp currentType bufferedType samples =>
    ∀ s ∈ samples, s.type = currentType ∧ s.type = bufferedType
  | _ => True

/-- A buffer is read and backed up only while its samples are of its resource's current type, and
no entry falls out of it while two reads are at it. -/
def keepsTypes : ObsEvent → Bool
  | .evicting refCount => decide (refCount ≤ 2)
  | .backingUp currentType bufferedType samples =>
    samples.isEmpty || decide (currentType = bufferedType)
  | .loading dataType bufferedType _ => decide (dataType = bufferedType)
  | _ => true

theorem readsOwnType_of_typed {ev : ObsEvent} (ht : BufferTyped ev) (hk : keepsTypes ev = true) :
    ev.ReadsOwnType := by
  cases ev with
  | loading dataType bufferedType sample => exact ht.trans (of_decide_eq_true hk).symm
  | backingUp currentType bufferedType samples =>
    intro s hs
    simp only [keepsTypes, Bool.or_eq_true, List.isEmpty_iff, decide_eq_true_eq] at hk
    rcases hk with rfl | rfl
    · cases hs
    · exact ⟨ht s hs, ht s hs⟩
  | _ => trivial

theorem fewReaders_of_keepsTypes (h : ∀ ev ∈ evs, keepsTypes ev = true) : FewReaders evs :=
  fun _ hrc => of_decide_eq_true (h _ hrc)

/-- What the hub keeps of the types of samples: those it has read were of the types of their
buffers, and its reads are in order. -/
structure TypesOk (h : Hub) : Prop where
  read : ∀ q ev, .obs q ev ∈ h.log → BufferTyped ev
  reads : Each (fun _ x => ∀ o, x.cls = .observation o → ReadsOk o) h

theorem readsOk_invariant :
    ResourceInvariant P (fun e => ∀ q ev, e = .obs q ev → keepsTypes ev = true) fun _ x =>
      ∀ o, x.cls = .observation o → ReadsOk o := by
  refine observation_invariant _ readsOk_obsCreate ?_ ?_
  · exact fun _ _ _ _ _ h _ => readsOk_restored h
  · intro o evs o' hrun hok h
    exact (readsOk_run h hrun (fewReaders_of_keepsTypes hok)).1

theorem ClassEdit.allTyped {cls cls' : ResourceClass} (hedit : ClassEdit P cls evs cls')
    (hb : ∀ o, cls = .observation o → o.BufferOk) (hr : ∀ o, cls = .observation o → ReadsOk o)
    (hfew : FewReaders evs) : AllTyped evs := by
  cases hedit with
  | same => exact allTyped_nil
  | optional => exact allTyped_nil
  | run hrun => exact allTyped_run (hb _ rfl) (hr _ rfl) hrun hfew
  | restore h => exact (allTyped_restored _ _).result h

theorem typesOk_micro (hwf : WellFormed h) (hm : Micro P h h')
    (hok : ∀ e ∈ h'.log, ∀ q ev, e = .obs q ev → keepsTypes ev = true) (ht : TypesOk h) :
    TypesOk h' := by
  refine ⟨?_, each_micro readsOk_invariant hwf ht.reads hm hok⟩
  obtain ⟨evs, hlog, hevs⟩ := obsEvents_micro hwf hm
  intro q ev hmem
  rw [hlog] at hmem hok
  rcases List.mem_append.mp hmem with hmem | hmem
  · exact ht.read q ev hmem
  · rcases hevs q ev hmem with hfreed | ⟨x, obsEvs, cls, hx, hedit, hev, hall⟩
    · rcases hfreed ev (List.mem_singleton.mpr rfl) with ⟨_, rfl⟩ | ⟨_, rfl⟩ | ⟨_, _, rfl⟩ <;>
        exact trivial
    · obtain ⟨entry, hentry, _⟩ := hwf.entryOf q x hx
      have hfew : FewReaders obsEvs := fewReaders_of_keepsTypes fun ev' hev' =>
        hok _ (List.mem_append_right _ (hall ev' hev')) q ev' rfl
      exact hedit.allTyped (hwf.typed q x entry hx hentry).buffer (ht.reads q x entry hx hentry)
        hfew ev hev

theorem reachable_typesOk (hr : Reachable P h)
    (hok : ∀ q ev, .obs q ev ∈ h.log → keepsTypes ev = true) : TypesOk h := by
  refine reachable_induction (fun e => ∀ q ev, e = .obs q ev → keepsTypes ev = true) ?_ ?_ hr ?_
  · intro env files
    refine ⟨fun q ev hmem => absurd hmem List.not_mem_nil, ?_⟩
    intro r x entry hx
    cases hx
  · exact fun _ _ hwf hm hok ht => typesOk_micro hwf hm hok ht
  · intro e hmem q ev heq
    exact hok q ev (heq ▸ hmem)

/-- The buffer is empty, or its samples are of the resource's current type. -/
def BufferCurrent (h : Hub) (r : ResRef) : Prop :=
  ∀ x o, h.resources r = some x → x.cls = .observation o →
    o.sampleList = [] ∨ x.currentType = o.bufferedType

theorem BufferCurrent.typed (hcur : BufferCurrent h r) (hx : h.resources r = some x)
    (ho : x.cls = .observation o) (hb : o.BufferOk) : ∀ s ∈ o.samples, s.type = x.currentType := by
  intro s hs
  rcases hcur x o hx ho with hnil | heq
  · simp [Observation.samples, hnil] at hs
  · rw [heq]
    exact hb.typed s hs

theorem sat_reads_typed {b : Hub} (he : Ext P b h) (ht : TypesOk h) (fuel : Nat) (op : Op)
    (hread : op.reads = true) (hcur : ∀ r, op.buffer P h = some r → BufferCurrent h r) :
    Sat Confusion (step P fuel h op) fun _ => True := by
  have hready : ∀ r x o, h.resources r = some x → x.cls = .observation o →
      o.BufferOk ∧ ReadsOk o := by
    intro r x o hx ho
    obtain ⟨entry, hentry, _⟩ := he.wf.entryOf r x hx
    exact ⟨(he.wf.typed r x entry hx hentry).buffer o ho, ht.reads r x entry hx hentry o ho⟩
  refine sat_step_reads bad_of_confusion he fuel op hread ?_ ?_ ?_
  · intro r x o id startAfter script hr hx ho
    obtain ⟨hb, hreads⟩ := hready r x o hx ho
    exact sat_readBufferJson_typed hreads ((hcur r hr).typed hx ho hb) _ _ _
  · intro r x o query hr hx ho
    obtain ⟨hb, _⟩ := hready r x o hx ho
    exact (sat_answerQuery hb query fun hq => (hcur r (hr hq)).typed hx ho hb).weaken
      bad_of_confusion
  · intro r x o id hangUp script hr hx ho
    obtain ⟨hb, hreads⟩ := hready r x o hx ho
    exact sat_fdEventHandler_typed hreads ((hcur r hr).typed hx ho hb) _ _ _

/-- Every sample is read at the type it was created with: those in a buffer are of the buffer's
type, all reads so far were at the right type, and so is every read of the next operation that is
all right. -/
structure ReadsOwnType (P : Platform) (Ok : Op → Prop) (h : Hub) : Prop where
  buffered : ∀ r x o, h.resources r = some x → x.cls = .observation o →
    ∀ s ∈ o.samples, s.type = o.bufferedType
  read : ∀ r ev, .obs r ev ∈ h.log → ev.ReadsOwnType
  next : ∀ fuel op, Ok op → step P fuel h op ≠ .error .typeConfusion

/-- Samples are read at their own types in every run in which buffers are only read while they hold
samples of the current type. -/
theorem reads_ownType (hr : Reachable P h)
    (hok : ∀ q ev, .obs q ev ∈ h.log → keepsTypes ev = true) :
    ReadsOwnType P (fun op => ∀ r, op.buffer P h = some r → BufferCurrent h r) h := by
  have ht := reachable_typesOk hr hok
  obtain ⟨env, files, he⟩ := reachable_ext hr
  refine ⟨?_, ?_, ?_⟩
  · intro r x o hx ho
    obtain ⟨entry, hentry, _⟩ := he.wf.entryOf r x hx
    exact ((he.wf.typed r x entry hx hentry).buffer o ho).typed
  · exact fun r ev hmem => readsOwnType_of_typed (ht.read r ev hmem) (hok r ev hmem)
  · intro fuel op hop heq
    have hsat : Sat Confusion (step P fuel h op) fun _ => True := by
      cases hread : op.reads with
      | false => exact (sat_step_confusion fuel he op hread).mono fun _ _ => trivial
      | true => exact sat_reads_typed he ht fuel op hread hop
    exact hsat.no_bad heq (.inl rfl)

/-- The samples of a buffer are read after it has been dumped for another type. -/
def retypedRun : List Op :=
  [.adminCreateObs (ascii "o"),
   .adminSetBufferMaxCount (ascii "o") 2,
   .adminPush (ascii "/obs/o") (double 1) (.numeric (double 10)),
   .adminPush (ascii "/obs/o") (double 2) (.string (ascii "on")),
   .queryReadBufferJson (ascii "o") .nan true [.wrote 9]]

theorem reads_ownType_retypedRun : ∃ h, Reachable smallPlatform h ∧
    ((h.observation 0).any fun o => o.readOpList.length = 1 && o.bufferedType = .string) = true ∧
    ReadsOwnType smallPlatform
      (fun op => ∀ r, op.buffer smallPlatform h = some r → BufferCurrent h r) h := by
  have hrun : smallRunEnds retypedRun (fun h => h.allObs keepsTypes &&
      (h.observation 0).any fun o =>
        o.readOpList.length = 1 && o.bufferedType = .string) = true := by
    decide +kernel
  obtain ⟨h, hr, hp⟩ := exists_of_smallRunEnds hrun
  rw [Bool.and_eq_true] at hp
  exact ⟨h, hr, hp.2, reads_ownType hr (of_allObs hp.1)⟩

/-- An override gives the resource another type than the samples in its buffer. -/
def overriddenBufferRun : List Op :=
  [.adminCreateObs (ascii "o"),
   .adminSetBufferMaxCount (ascii "o") 1,
   .adminPush (ascii "/obs/o") (double 1) (.numeric (double 5)),
   .adminSetOverride (ascii "/obs/o") (.string (ascii "x"))]

def Fault.isTypeConfusion : Fault → Bool
  | .typeConfusion => true
  | _ => false

theorem reads_ownType_fails : ∃ h, Reachable smallPlatform h ∧
    ¬ ReadsOwnType smallPlatform (fun _ => True) h := by
  have hrun : smallRunEnds overriddenBufferRun
      (fun h => failsWith (step smallPlatform 8 h (.queryBuffer (ascii "o") (.string .nan 100)))
        Fault.isTypeConfusion) = true := by
    decide +kernel
  obtain ⟨h, hr, hp⟩ := exists_of_smallRunEnds hrun
  refine ⟨h, hr, fun hown => ?_⟩
  obtain ⟨e, heq, hconfused⟩ := failsWith_iff.mp hp
  cases e with
  | typeConfusion => exact hown.next 8 _ trivial heq
  | _ => cases hconfused

end MangOH.DataHub
