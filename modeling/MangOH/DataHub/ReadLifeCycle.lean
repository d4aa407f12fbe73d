import MangOH.DataHub.ReadFraming
import MangOH.DataHub.Reads

/-! The life of a read operation: it is open, or it has ended once and told so, and either way the
entries of the buffer are held exactly as often as they are referred to. -/
namespace MangOH.DataHub

open Outcome

variable {P : Platform} {ctx : ObsContext} {o o' o'' : Observation} {t : DataType}
  {op : ReadOperation} {evs evs' log : List ObsEvent} {c : Continued} {id id' : Nat}

/-- A read with this id starts in the step. -/
def StartsRead (P : Platform) (id : Nat) (o : Observation) (evs : List ObsEvent)
    (o' : Observation) : Prop :=
  (∀ op ∈ o.readOpList, op.id ≠ id) ∧ ∃ ctx startAfter script,
    obsReadBufferJson P ctx o id startAfter script = .ok (o', evs)

/-- Any steps of an Observation, but no new read with this id. -/
inductive RunWithout (P : Platform) (id : Nat) (o : Observation) :
    List ObsEvent → Observation → Prop
  | refl : RunWithout P id o [] o
  | step {log evs : List ObsEvent} {o₁ o₂ : Observation} (hr : RunWithout P id o log o₁)
      (hs : ObsStep P o₁ evs o₂) (hnew : ¬ StartsRead P id o₁ evs o₂) :
      RunWithout P id o (log ++ evs) o₂

/-- A read that was started is open and has not told of an end; or it is gone, and has told of one
end, with success exactly if the closing bracket was written. -/
inductive Fate (id : Nat) (log : List ObsEvent) (o : Observation) : Prop
  | going (op : ReadOperation) (hop : op ∈ o.readOpList) (hid : op.id = id)
      (hincomplete : ¬ op.Complete) (hends : endsOf id log = [])
  | ended (op : ReadOperation) (result : LeResult) (hgone : ∀ r ∈ o.readOpList, r.id ≠ id)
      (hends : endsOf id log = [(op, result)]) (hresult : result = .ok ↔ op.Complete)

/-- No read has ended, and none has started or moved. -/
theorem Quiet.noEnds (h : Quiet o evs o') : NoEnds evs := by
  intro ev hev
  cases ev with
  | readDone op result => exact absurd hev (h.notDone op result)
  | _ => rfl

/-- What a step does to the reads: nothing, or it moves one of them, or it starts one. -/
inductive ReadsMove (P : Platform) (o : Observation) : List ObsEvent → Observation → Prop
  | none {evs : List ObsEvent} {o' : Observation} (hreads : o'.readOpList = o.readOpList)
      (hends : NoEnds evs) : ReadsMove P o evs o'
  | event {before after : List ReadOperation} {op : ReadOperation} {c : Continued}
      (hreads : o.readOpList = before ++ op :: after) (hmove : ReadOutcome o op c) :
      ReadsMove P o c.events { c.obs with readOpList := before ++ c.op.toList ++ after }
  | start {op : ReadOperation} {c : Continued} {evs : List ObsEvent} {o₁ : Observation}
      (hfresh : ∀ r ∈ o.readOpList, r.id ≠ op.id) (hends : NoEnds evs) (hmove : ReadOutcome o₁ op c)
      (hstarts : StartsRead P op.id o (evs ++ c.events)
        { c.obs with readOpList := o.readOpList ++ c.op.toList }) :
      ReadsMove P o (evs ++ c.events) { c.obs with readOpList := o.readOpList ++ c.op.toList }

/-- Every open read has written what its state says. -/
def OutputsOk (o : Observation) : Prop := ∀ op ∈ o.readOpList, op.OutputOk

theorem move_fdEvent (href : ReferencesOk o) (hout : OutputsOk o) (hangUp : Bool)
    (script : List WriteResult) :
    Returns (readOpFdEventHandler P t o id hangUp script) fun r => ReadsMove P o r.2 r.1 := by
  unfold readOpFdEventHandler
  split
  · exact .none rfl noEnds_nil
  · next op hfind =>
    have hmem := List.mem_of_find?_eq_some hfind
    have hid : op.id = id := by simpa using List.find?_some hfind
    obtain ⟨before, after, hl, hb, ha⟩ := split_of_mem href.ids hmem
    rw [hid] at hb ha
    refine (continueReadOp_outcome _ o (hout op hmem)).bind fun c hc => ?_
    have hlist : c.obs.readOpList = before ++ op :: after := by
      cases hc <;> exact hl
    show ReadsMove P o c.events (c.store id)
    rw [store_eq hlist hid hb ha]
    exact .event hl hc

/-- A read that starts is at the end of the list, or has ended at once. -/
theorem start_outcome (hfresh : ∀ op ∈ o.readOpList, op.id ≠ id) (startAfter : Double)
    (script : List WriteResult) :
    Returns (obsReadBufferJson P ctx o id startAfter script) fun r => ∃ op c evs o₁, op.id = id ∧
      NoEnds evs ∧ ReadOutcome o₁ op c ∧
      r = ({ c.obs with readOpList := o.readOpList ++ c.op.toList }, evs ++ c.events) := by
  unfold obsReadBufferJson loadReadOpBuffer
  dsimp only
  obtain ⟨rc, hobs⟩ := hold_frame o (findAfter P ctx.env o startAfter)
  rw [hobs]
  refine (loadLoop_text _ _ _).bind fun l hl => ?_
  obtain ⟨⟨rc₁, hobs₁⟩, ⟨next, wb, em, hop⟩, hends, hfound, hnot⟩ := hl
  obtain ⟨_, _, loads, found⟩ := l
  dsimp only at hobs₁ hop hends hfound hnot ⊢
  subst hobs₁ hop
  have hout : ReadOperation.OutputOk ⟨id, next, .start, wb, 0, em, []⟩ := by
    unfold ReadOperation.OutputOk
    refine ⟨rfl, rfl, ?_⟩
    cases found with
    | true => exact .inr (hfound rfl)
    | false => exact .inl (hnot rfl)
  refine (continueReadOp_outcome script _ hout).bind fun c hmove => ?_
  have hlist : c.obs.readOpList =
      o.readOpList ++ (⟨id, next, .start, wb, 0, em, []⟩ : ReadOperation) :: [] := by
    cases hmove <;> rfl
  have hstore := store_eq hlist rfl hfresh (by simp)
  rw [List.append_nil] at hstore
  exact ⟨_, c, loads, _, rfl, hends, hmove, Prod.ext hstore rfl⟩

theorem readsMove_of_obsStep (href : ReferencesOk o) (hout : OutputsOk o)
    (hs : ObsStep P o evs o') : ReadsMove P o evs o' := by
  have hquiet {evs : List ObsEvent} {o' : Observation} (h : Quiet o evs o') :
      ReadsMove P o evs o' := .none h.reads h.noEnds
  cases hs with
  | process ctx t s hs hp => exact hquiet ((quiet_process o t s).result hp)
  | accept now => exact .none rfl noEnds_nil
  | settings => exact .none rfl noEnds_nil
  | transform ty ht =>
    have htruncate := (quiet_truncateBuffer _ 0).result ht
    exact .none htruncate.reads htruncate.noEnds
  | maxCount ctx count hc => exact hquiet ((quiet_setBufferMaxCount o count).result hc)
  | backupPeriod ctx seconds hp =>
    exact hquiet ((quiet_setBufferBackupPeriod o seconds).result hp)
  | backup ctx hb => exact hquiet ((quiet_backup o).result hb)
  | startRead ctx id hid startAfter script hr =>
    obtain ⟨op, c, evs, o₁, rfl, hends, hmove, heq⟩ :=
      (start_outcome hid startAfter script).result hr
    cases heq
    exact .start hid hends hmove ⟨hid, ctx, startAfter, script, hr⟩
  | fdEvent t id hangUp script hf => exact (move_fdEvent href hout hangUp script).result hf

/-! ### What a step keeps -/

theorem ReadOutcome.outputOk (h : ReadOutcome o op c) : ∀ r ∈ c.op.toList, r.OutputOk := by
  cases h with
  | going hid hout hevs => simpa using hout
  | ended => simp

theorem ReadOutcome.id_eq (h : ReadOutcome o op c) : ∀ r ∈ c.op.toList, r.id = op.id := by
  cases h with
  | going hid hout hevs => simpa using hid
  | ended => simp

theorem outputsOk_move (hout : OutputsOk o) (hm : ReadsMove P o evs o') : OutputsOk o' := by
  unfold OutputsOk at hout ⊢
  cases hm with
  | none hreads => rwa [hreads]
  | event hreads hmove =>
    rw [hreads, List.forall_mem_append, List.forall_mem_cons] at hout
    obtain ⟨hbefore, -, hafter⟩ := hout
    rw [List.forall_mem_append, List.forall_mem_append]
    exact ⟨⟨hbefore, hmove.outputOk⟩, hafter⟩
  | start hfresh hends hmove =>
    rw [List.forall_mem_append]
    exact ⟨hout, hmove.outputOk⟩

theorem ReadOutcome.endsOf_other (h : ReadOutcome o op c) (hne : op.id ≠ id) :
    endsOf id c.events = [] := by
  cases h with
  | going hid hout hevs => exact endsOf_noEnds hevs
  | ended hid hevs result hresult =>
    rw [endsOf_append, endsOf_noEnds hevs]
    simp [endsOf, ObsEvent.ends, hid, hne]

/-- A step that does not move the read. -/
theorem Fate.other (h : Fate id log o)
    (hreads : ∀ r, r.id = id → (r ∈ o'.readOpList ↔ r ∈ o.readOpList))
    (hends : endsOf id evs = []) : Fate id (log ++ evs) o' := by
  have hlog : endsOf id (log ++ evs) = endsOf id log := by
    rw [endsOf_append, hends, List.append_nil]
  cases h with
  | going op hop hid hincomplete hnone =>
    exact .going op ((hreads op hid).mpr hop) hid hincomplete (hlog.trans hnone)
  | ended op result hgone hone hresult =>
    exact .ended op result (fun r hr hid => hgone r ((hreads r hid).mp hr) hid)
      (hlog.trans hone) hresult

/-- A step of the read itself. -/
theorem fate_moved {before after : List ReadOperation} (hmove : ReadOutcome o op c)
    (hid : op.id = id) (hb : ∀ r ∈ before, r.id ≠ id) (ha : ∀ r ∈ after, r.id ≠ id)
    (hlog : endsOf id log = []) :
    Fate id (log ++ c.events) { c.obs with readOpList := before ++ c.op.toList ++ after } := by
  have hrest : ∀ r ∈ before ++ after, r.id ≠ id := by
    rw [List.forall_mem_append]
    exact ⟨hb, ha⟩
  cases hmove with
  | @going refCount op' evs hid' hout hevs =>
    refine .going op' (by simp) (hid'.trans hid) hout.incomplete ?_
    rw [endsOf_append, hlog, endsOf_noEnds hevs, List.append_nil]
  | @ended refCount op' evs hid' hevs result hresult =>
    refine .ended op' result (by simpa using hrest) ?_ hresult
    rw [endsOf_append, hlog, endsOf_readDone (hid'.trans hid) hevs, List.nil_append]

theorem ids_of_split {before after : List ReadOperation} (href : ReferencesOk o)
    (hl : o.readOpList = before ++ op :: after) :
    (∀ r ∈ before, r.id ≠ op.id) ∧ ∀ r ∈ after, r.id ≠ op.id := by
  have hids := href.ids
  rw [hl, List.map_append, List.map_cons, List.nodup_append] at hids
  obtain ⟨_, hafter, hbefore⟩ := hids
  refine ⟨fun r hr => ?_, fun r hr heq => ?_⟩
  · exact hbefore _ (List.mem_map_of_mem hr) _ (List.mem_cons_self ..)
  · exact (List.nodup_cons.mp hafter).1 (List.mem_map.mpr ⟨r, hr, heq⟩)

theorem fate_move (href : ReferencesOk o) (h : Fate id log o) (hm : ReadsMove P o evs o')
    (hnew : ¬ StartsRead P id o evs o') : Fate id (log ++ evs) o' := by
  cases hm with
  | none hreads hends => exact h.other (fun r _ => by rw [hreads]) (endsOf_noEnds hends)
  | @event before after op c hreads hmove =>
    by_cases hid : op.id = id
    · have hmem : op ∈ o.readOpList := by simp [hreads]
      obtain ⟨hb, ha⟩ := ids_of_split href hreads
      rw [hid] at hb ha
      cases h with
      | going _ _ _ _ hends => exact fate_moved hmove hid hb ha hends
      | ended _ _ hgone => exact absurd hid (hgone op hmem)
    · refine h.other (fun r hr => ?_) (hmove.endsOf_other hid)
      have hmoved : r ∉ c.op.toList := fun hr' => hid ((hmove.id_eq r hr').symm.trans hr)
      have hne : r ≠ op := fun heq => hid (heq ▸ hr)
      simp [hreads, hmoved, hne]
  | @start op c evs o₁ hfresh hends hmove hstarts =>
    have hid : op.id ≠ id := fun heq => hnew (heq ▸ hstarts)
    refine h.other (fun r hr => ?_) ?_
    · have hmoved : r ∉ c.op.toList := fun hr' => hid ((hmove.id_eq r hr').symm.trans hr)
      simp [hmoved]
    · rw [endsOf_append, endsOf_noEnds hends, hmove.endsOf_other hid, List.nil_append]

/-- The step that starts the read. -/
theorem fate_start (hnew : StartsRead P id o evs o') : Fate id evs o' := by
  obtain ⟨hfresh, ctx, startAfter, script, hr⟩ := hnew
  obtain ⟨op, c, evs, o₁, hid, hends, hmove, heq⟩ :=
    (start_outcome hfresh startAfter script).result hr
  cases heq
  have hnil : ∀ r ∈ ([] : List ReadOperation), r.id ≠ id := by simp
  have hmoved := fate_moved hmove hid hfresh hnil (endsOf_noEnds hends)
  rwa [List.append_nil] at hmoved

/-- What a run keeps of a read, whatever else it does. -/
theorem fate_run (hP : PeeksList P) (href : ReferencesOk o) (hout : OutputsOk o)
    (h : Fate id log o) (hrun : RunWithout P id o evs o') :
    ReferencesOk o' ∧ OutputsOk o' ∧ Fate id (log ++ evs) o' := by
  induction hrun with
  | refl =>
    rw [List.append_nil]
    exact ⟨href, hout, h⟩
  | step hr hs hnew ih =>
    obtain ⟨href₁, hout₁, hfate⟩ := ih
    have hmove := readsMove_of_obsStep href₁ hout₁ hs
    rw [← List.append_assoc]
    exact ⟨referencesOk_step hP href₁ hs, outputsOk_move hout₁ hmove,
      fate_move href₁ hfate hmove hnew⟩

theorem ObsReachable.outputsOk (hP : PeeksList P) (hr : ObsReachable P log o) : OutputsOk o := by
  induction hr with
  | create => exact fun _ hop => absurd hop List.not_mem_nil
  | restore env content h =>
    obtain ⟨_, hreads, _⟩ := (sat_restoreContent_bufferOk env content).result h
    intro op hop
    rw [hreads] at hop
    exact absurd hop List.not_mem_nil
  | step hr hs ih => exact outputsOk_move ih (readsMove_of_obsStep (hr.referencesOk hP) ih hs)

/-! ### The end of the Observation -/

/-- `ObservationDestructor`, less the backup file: the buffer lets go of its entries, then every
open read is ended. -/
def observationDestructor (o : Observation) : Observation × List ObsEvent :=
  endReads o.readOpList
    { o.sampleList.foldl Observation.release o with sampleList := [], count := 0, maxCount := 0 }
where
  endReads : List ReadOperation → Observation → Observation × List ObsEvent
    | [], o => ({ o with readOpList := [] }, [])
    | op :: reads, o =>
      let ended := endRead o op .commError
      let rest := endReads reads ended.1
      (rest.1, ended.2 :: rest.2)

theorem endReads_events (reads : List ReadOperation) (o : Observation) :
    (observationDestructor.endReads reads o).2 =
      reads.map fun op => .readDone { op with nextEntryPtr := none } .commError := by
  induction reads generalizing o with
  | nil => rfl
  | cons op reads ih =>
    rw [observationDestructor.endReads, List.map_cons, ← ih (endRead o op .commError).1]
    rfl

/-- Letting go of entries takes one reference from each of them. -/
theorem refCount_releases (l : List BufferEntry) (o : Observation) (id : Nat) :
    (l.foldl Observation.release o).refCount id = o.refCount id - heldBy l id := by
  induction l generalizing o with
  | nil => rfl
  | cons e l ih =>
    rw [List.foldl_cons, ih, heldBy_cons]
    by_cases hid : id = e.id
    · subst hid
      simp only [Observation.release, Function.update_self, if_true]
      omega
    · simp only [Observation.release, Function.update_of_ne hid, if_neg (Ne.symm hid), Nat.add_zero]

theorem refCount_endReads (reads : List ReadOperation) (o : Observation) (id : Nat) :
    (observationDestructor.endReads reads o).1.refCount id =
      o.refCount id - heldBy (positionsOf reads) id := by
  induction reads generalizing o with
  | nil => rfl
  | cons op reads ih =>
    rw [observationDestructor.endReads, ih, ← List.singleton_append, positionsOf_append,
      heldBy_append]
    cases hpos : op.nextEntryPtr with
    | none => simp [endRead, Observation.letGo, hpos, positionsOf, heldBy]
    | some e =>
      have hone := refCount_releases [e] o id
      simp only [List.foldl_cons, List.foldl_nil] at hone
      simp only [endRead, Observation.letGo, hpos, hone, positionsOf, List.filterMap_cons,
        List.filterMap_nil]
      omega

/-- Nothing that was in the buffer or that a read stood at is held after the destructor. -/
theorem refCount_destructed (href : ReferencesOk o) (id : Nat) :
    (observationDestructor o).1.refCount id = 0 := by
  rw [observationDestructor, refCount_endReads]
  have hcount := href.counted.refCount id
  have hbuffer := refCount_releases o.sampleList o id
  simp only
  omega

/-- What the hub logs of the destructor is what it does to the reads. -/
theorem destructObs_ends (h : Hub) (r : ResRef) (x : Resource) (o : Observation) :
    ∃ evs, NoEnds evs ∧ (destructObs P h r x o).log =
      (h.emitObs r (evs ++ (observationDestructor o).2)).log := by
  have hends : NoEnds (.destructing o.backupTimer ::
      if 0 < o.backupPeriod then deleteBackup P (obsContext h x) else []) := by
    unfold NoEnds deleteBackup
    rw [List.forall_mem_cons]
    refine ⟨rfl, ?_⟩
    split
    · split <;> simp [ObsEvent.ends]
    · simp
  refine ⟨_, hends, ?_⟩
  unfold destructObs observationDestructor
  rw [endReads_events]
  dsimp only
  split <;> rfl

/-- The ends of other reads. -/
theorem endsOf_ended {reads : List ReadOperation} (h : ∀ r ∈ reads, r.id ≠ id) :
    endsOf id (reads.map fun op => .readDone { op with nextEntryPtr := none } .commError) = [] := by
  induction reads with
  | nil => rfl
  | cons op reads ih =>
    obtain ⟨hne, hrest⟩ := List.forall_mem_cons.mp h
    rw [List.map_cons, ← List.singleton_append, endsOf_append, ih hrest]
    simp [endsOf, ObsEvent.ends, hne]

theorem Fate.destructed (h : Fate id log o) (href : ReferencesOk o) :
    ∃ op result, endsOf id (log ++ (observationDestructor o).2) = [(op, result)] ∧
      (result = .ok ↔ op.Complete) := by
  have hevents : (observationDestructor o).2 =
      o.readOpList.map fun op => .readDone { op with nextEntryPtr := none } .commError :=
    endReads_events _ _
  cases h with
  | going op hop hid hincomplete hends =>
    obtain ⟨before, after, hl⟩ := List.append_of_mem hop
    obtain ⟨hb, ha⟩ := ids_of_split href hl
    rw [hid] at hb ha
    refine ⟨{ op with nextEntryPtr := none }, .commError, ?_, by simp, fun hall => ?_⟩
    · rw [endsOf_append, hends, hevents, hl, List.map_append, endsOf_append, List.map_cons,
        ← List.singleton_append, endsOf_append, endsOf_ended hb, endsOf_ended ha]
      simp [endsOf, ObsEvent.ends, hid]
    · exact absurd hall hincomplete
  | ended op result hgone hends hresult =>
    refine ⟨op, result, ?_, hresult⟩
    rw [endsOf_append, hends, hevents, endsOf_ended hgone, List.append_nil]

/-- A read that was started is open or has ended once, whatever happens to its Observation; by the
end of the Observation it has ended once, and no entry of the buffer is held any more. -/
theorem read_ends_once {h : Hub} {r : ResRef} {x : Resource} {o₁ o₂ : Observation}
    {evs₁ evs₂ : List ObsEvent} (hP : PeeksList P) (hr : Reachable P h)
    (hx : h.resources r = some x) (ho : x.cls = .observation o) (ctx : ObsContext)
    (startAfter : Double) (script : List WriteResult)
    (hstart : obsReadBufferJson P ctx o h.nextRead startAfter script = .ok (o₁, evs₁))
    (hrun : RunWithout P h.nextRead o₁ evs₂ o₂) :
    Fate h.nextRead (evs₁ ++ evs₂) o₂ ∧
      (∀ id, o₂.refCount id = heldBy o₂.sampleList id + heldBy (positionsOf o₂.readOpList) id) ∧
      (∃ op result, endsOf h.nextRead (evs₁ ++ evs₂ ++ (observationDestructor o₂).2) =
        [(op, result)] ∧ (result = .ok ↔ op.Complete)) ∧
      ∀ id, (observationDestructor o₂).1.refCount id = 0 := by
  obtain ⟨log, hlog, _⟩ := observation_reachable (fun _ => True) hr (fun _ _ _ => trivial) hx ho
  have hfresh := fresh_nextRead hr hx ho
  have hstep : ObsStep P o evs₁ o₁ := .startRead ctx h.nextRead hfresh startAfter script hstart
  have hlog₁ := hlog.step hstep
  have hfate : Fate h.nextRead evs₁ o₁ := fate_start ⟨hfresh, ctx, startAfter, script, hstart⟩
  obtain ⟨href, _, hend⟩ := fate_run hP (hlog₁.referencesOk hP) (hlog₁.outputsOk hP) hfate hrun
  exact ⟨hend, href.counted.refCount, hend.destructed href, refCount_destructed href⟩

/-- The read of two samples has one byte accepted; then the peer hangs up. -/
theorem read_ends_once_hangUp : ∃ h x o o₁ o₂ evs₁ evs₂, Reachable smallPlatform h ∧
    h.resources 0 = some x ∧ x.cls = .observation o ∧ o₁.readOpList.length = 1 ∧
    o₂.readOpList = [] ∧ Fate h.nextRead (evs₁ ++ evs₂) o₂ ∧
    obsReadBufferJson smallPlatform ⟨smallEnvironment, none, .numeric⟩ o h.nextRead .nan
      [.wrote 0, .again] = .ok (o₁, evs₁) := by
  have hrun : smallRunEnds lateSampleRun (fun h => (h.observation 0).any fun o =>
      passes (obsReadBufferJson smallPlatform ⟨smallEnvironment, none, .numeric⟩ o h.nextRead .nan
        [.wrote 0, .again]) fun r =>
          (r.1.readOpList.length = 1 && r.1.readOpList.any (·.id = h.nextRead)) &&
          passes (readOpFdEventHandler smallPlatform .numeric r.1 h.nextRead true []) fun r' =>
            r'.1.readOpList.isEmpty) = true := by
    decide +kernel
  obtain ⟨h, hr, hp⟩ := exists_of_smallRunEnds hrun
  obtain ⟨o, ho, hp⟩ := (Option.any_eq_true _ _).mp hp
  obtain ⟨x, hx, hcls⟩ := observation_eq_some ho
  obtain ⟨⟨o₁, evs₁⟩, hstart, hp⟩ := passes_iff.mp hp
  obtain ⟨hopen, hp⟩ := Bool.and_eq_true_iff.mp hp
  obtain ⟨hone, hany⟩ := Bool.and_eq_true_iff.mp hopen
  obtain ⟨⟨o₂, evs₂⟩, hevent, hempty⟩ := passes_iff.mp hp
  obtain ⟨op, hop, hid⟩ := List.any_eq_true.mp hany
  have hnew : ¬ StartsRead smallPlatform h.nextRead o₁ evs₂ o₂ := fun hnew =>
    hnew.1 op hop (of_decide_eq_true hid)
  have hP : PeeksList smallPlatform := fun _ _ _ hn => by cases hn
  have hfate := (read_ends_once hP hr hx hcls ⟨smallEnvironment, none, .numeric⟩ .nan
    [.wrote 0, .again] hstart (.step .refl (.fdEvent .numeric h.nextRead true [] hevent) hnew)).1
  exact ⟨h, x, o, o₁, o₂, evs₁, _, hr, hx, hcls, of_decide_eq_true hone,
    List.isEmpty_iff.mp hempty, hfate, hstart⟩

end MangOH.DataHub
