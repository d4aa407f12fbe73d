import MangOH.DataHub.ReadSteps
import Mathlib.Logic.Relation

/-! The references to buffer entries: in every state of an Observation the count of an entry is the
number of reads that stand at it, and one more while it is in the buffer. -/
namespace MangOH.DataHub

open Outcome Relation

variable {P : Platform} {ctx : ObsContext} {o o' : Observation} {s : DataSample} {t : DataType}
  {op op' : ReadOperation} {e : BufferEntry} {positions positions' : List BufferEntry}
  {evs log : List ObsEvent} {c : Continued}

/-- The buffer holds one reference to each entry in it, and each position one to its entry. -/
structure RefsCounted (o : Observation) (positions : List BufferEntry) : Prop where
  increasing : o.sampleList.Pairwise fun a b => a.id < b.id
  listed_lt : ∀ e ∈ o.sampleList, e.id < o.nextEntry
  held_lt : ∀ e ∈ positions, e.id < o.nextEntry
  refCount : ∀ id, o.refCount id = heldBy o.sampleList id + heldBy positions id

theorem RefsCounted.congr (h : RefsCounted o positions) (hl : o'.sampleList = o.sampleList)
    (hr : o'.refCount = o.refCount) (hn : o'.nextEntry = o.nextEntry) :
    RefsCounted o' positions := by
  obtain ⟨hinc, hlt, hheld, hcount⟩ := h
  refine ⟨?_, ?_, ?_, ?_⟩
  · rwa [hl]
  · rwa [hl, hn]
  · rwa [hn]
  · rwa [hl, hr]

theorem RefsCounted.perm (h : RefsCounted o positions) (hp : positions'.Perm positions) :
    RefsCounted o positions' := by
  refine ⟨h.increasing, h.listed_lt, fun e he => h.held_lt e (hp.mem_iff.mp he), fun id => ?_⟩
  rw [show heldBy positions' id = heldBy positions id from hp.countP_eq _]
  exact h.refCount id

theorem counted_obsCreate : RefsCounted obsCreate [] := by
  refine ⟨List.Pairwise.nil, ?_, ?_, fun _ => rfl⟩ <;> simp [obsCreate]

/-! ### What is done to the buffer -/

/-- The atomic changes of an Observation that are not made by its reads. -/
inductive BufferAct : Observation → Observation → Prop
  | queue (o : Observation) (s : DataSample) : BufferAct o (addToBuffer.queue o s)
  | pop {o : Observation} {e : BufferEntry} {rest : List BufferEntry}
      (hl : o.sampleList = e :: rest) (count : Nat) :
      BufferAct o ({ o with sampleList := rest, count }.release e)
  | settings {o o' : Observation} (hl : o'.sampleList = o.sampleList)
      (hr : o'.refCount = o.refCount) (hn : o'.nextEntry = o.nextEntry)
      (hreads : o'.readOpList = o.readOpList) : BufferAct o o'

abbrev BufferActs : Observation → Observation → Prop := ReflTransGen BufferAct

theorem bufferActs_settings (hl : o'.sampleList = o.sampleList) (hr : o'.refCount = o.refCount)
    (hn : o'.nextEntry = o.nextEntry) (hreads : o'.readOpList = o.readOpList) : BufferActs o o' :=
  .single (.settings hl hr hn hreads)

theorem bufferActs_addToBuffer (o : Observation) (s : DataSample) :
    BufferActs o (addToBuffer o s) := by
  rcases addToBuffer_cases o s with ⟨ha, _⟩ | ha <;> rw [ha]
  exact .single (.queue o s)

theorem bufferActs_truncateLoop (k : Nat) (o : Observation) :
    Returns (truncateLoop k o) fun r => BufferActs o r.1 := by
  induction k generalizing o with
  | zero => exact .refl
  | succ k ih =>
    unfold truncateLoop popOldest
    split
    · exact id
    · next e rest hl =>
      show Returns (truncateLoop k _ >>= _) _
      exact (ih _).bind fun r hr => .head (.pop hl _) hr

theorem bufferActs_truncateBuffer (o : Observation) (n : Nat) :
    Returns (truncateBuffer o n) fun r => BufferActs o r.1 := bufferActs_truncateLoop _ o

theorem bufferActs_backup (o : Observation) :
    Returns (backup P ctx o) fun r => BufferActs o r.1 := by
  have hset : BufferActs o
      { o with backupTimer := false, lastBackupTime := ctx.env.relSec % 2 ^ 32 } :=
    bufferActs_settings rfl rfl rfl rfl
  unfold backup
  split
  · exact hset
  · split
    · exact hset
    · refine Sat.bind (Q := fun _ => True) (Returns.of_ok fun _ _ => trivial) fun content _ => ?_
      cases content <;> exact hset

theorem bufferActs_process (o : Observation) (t : DataType) (s : DataSample) :
    Returns (obsProcessAccepted P ctx o t s) fun r => BufferActs o r.1 := by
  have hretype : ∀ o, Returns (obsProcessAccepted.retype t o) fun r => BufferActs o r.1 := by
    intro o
    unfold obsProcessAccepted.retype
    split
    · exact .refl
    · exact (bufferActs_truncateBuffer o 0).bind fun r hr =>
        hr.trans (bufferActs_settings rfl rfl rfl rfl)
  have hsave : ∀ o, Returns (obsProcessAccepted.save P ctx o) fun r => BufferActs o r.1 := by
    intro o
    unfold obsProcessAccepted.save
    split
    · exact .refl
    · split
      · exact bufferActs_backup o
      · exact bufferActs_settings rfl rfl rfl rfl
  unfold obsProcessAccepted
  split
  · exact .refl
  · refine (hretype o).bind fun r₁ h₁ => ?_
    refine (bufferActs_truncateBuffer _ _).bind fun r₂ h₂ => ?_
    refine (hsave _).bind fun r₃ h₃ => ?_
    exact h₁.trans ((bufferActs_addToBuffer _ s).trans (h₂.trans h₃))

theorem bufferActs_setBufferMaxCount (o : Observation) (count : UInt32) :
    Returns (obsSetBufferMaxCount P ctx o count) fun r => BufferActs o r.1 := by
  unfold obsSetBufferMaxCount
  split
  · exact .refl
  · have hdis : BufferActs o (if count.toNat = 0 ∧ 0 < o.backupPeriod then
        disableBackups P ctx o else (o, [])).1 := by
      split
      · exact bufferActs_settings rfl rfl rfl rfl
      · exact .refl
    generalize (if count.toNat = 0 ∧ 0 < o.backupPeriod then
        disableBackups P ctx o else (o, [])) = dis at hdis
    obtain ⟨o₁, disabled⟩ := dis
    have hmax : BufferActs o₁ { o₁ with maxCount := count.toNat } :=
      bufferActs_settings rfl rfl rfl rfl
    refine (bufferActs_truncateBuffer _ _).bind fun r hr => ?_
    exact hdis.trans (hmax.trans hr)

theorem bufferActs_setBufferBackupPeriod (o : Observation) (seconds : UInt32) :
    Returns (obsSetBufferBackupPeriod P ctx o seconds) fun r => BufferActs o r.1 := by
  unfold obsSetBufferBackupPeriod
  split
  · exact .refl
  · dsimp only
    split
    · exact bufferActs_settings rfl rfl rfl rfl
    · split
      · exact bufferActs_settings rfl rfl rfl rfl
      · split
        · exact bufferActs_settings rfl rfl rfl rfl
        · split
          · have htimer : BufferActs o { o with
                backupPeriod := seconds.toNat, backupTimer := false } :=
              bufferActs_settings rfl rfl rfl rfl
            exact (bufferActs_backup _).mono fun r hr => htimer.trans hr
          · exact bufferActs_settings rfl rfl rfl rfl

theorem readOpList_bufferAct (h : BufferAct o o') : o'.readOpList = o.readOpList := by
  cases h with
  | queue => rfl
  | pop => rfl
  | settings _ _ _ hreads => exact hreads

theorem readOpList_bufferActs (h : BufferActs o o') : o'.readOpList = o.readOpList := by
  induction h with
  | refl => rfl
  | tail _ hact ih => exact (readOpList_bufferAct hact).trans ih

/-! ### Counting -/

theorem counted_queue (h : RefsCounted o positions) (s : DataSample) :
    RefsCounted (addToBuffer.queue o s) positions := by
  have hfresh : ∀ l : List BufferEntry, (∀ e ∈ l, e.id < o.nextEntry) →
      heldBy l o.nextEntry = 0 := fun l hl =>
    heldBy_eq_zero.mpr fun e he => Nat.ne_of_lt (hl e he)
  refine ⟨?_, ?_, fun e he => Nat.lt_succ_of_lt (h.held_lt e he), ?_⟩
  · refine List.pairwise_append.mpr ⟨h.increasing, List.pairwise_singleton _ _, ?_⟩
    intro a ha b hb
    rw [List.mem_singleton.mp hb]
    exact h.listed_lt a ha
  · intro e he
    rcases List.mem_append.mp he with he | he
    · exact Nat.lt_succ_of_lt (h.listed_lt e he)
    · rw [List.mem_singleton.mp he]
      exact Nat.lt_succ_self _
  · intro id
    have hcount := h.refCount id
    simp only [addToBuffer.queue, heldBy_append, heldBy_cons]
    by_cases hid : id = o.nextEntry
    · subst hid
      rw [Function.update_self, hfresh _ h.listed_lt, hfresh _ h.held_lt]
      simp [heldBy]
    · rw [Function.update_of_ne hid, hcount, if_neg fun heq => hid heq.symm]
      simp [heldBy]

theorem counted_pop {rest : List BufferEntry} (h : RefsCounted o positions)
    (hl : o.sampleList = e :: rest) (count : Nat) :
    RefsCounted ({ o with sampleList := rest, count }.release e) positions := by
  obtain ⟨hinc, hlt, hheld, hcount⟩ := h
  rw [hl] at hinc hlt hcount
  refine ⟨hinc.of_cons, fun l hmem => hlt l (List.mem_cons_of_mem _ hmem), hheld, fun id => ?_⟩
  have hid := hcount id
  rw [heldBy_cons] at hid
  by_cases heq : id = e.id
  · subst heq
    simp only [Observation.release, Function.update_self]
    rw [if_pos rfl] at hid
    omega
  · simp only [Observation.release, Function.update_of_ne heq]
    rw [if_neg fun h => heq h.symm] at hid
    omega

theorem counted_bufferAct (hact : BufferAct o o') (h : RefsCounted o positions) :
    RefsCounted o' positions := by
  cases hact with
  | queue s => exact counted_queue h s
  | pop hl count => exact counted_pop h hl count
  | settings hl hr hn => exact h.congr hl hr hn

theorem counted_bufferActs (hacts : BufferActs o o') (h : RefsCounted o positions) :
    RefsCounted o' positions := by
  induction hacts with
  | refl => exact h
  | tail _ hact ih => exact counted_bufferAct hact ih

theorem counted_release (h : RefsCounted o (e :: positions)) :
    RefsCounted (o.release e) positions := by
  refine ⟨h.increasing, h.listed_lt, fun p hp => h.held_lt p (List.mem_cons_of_mem _ hp), ?_⟩
  intro id
  have hid := h.refCount id
  rw [heldBy_cons] at hid
  by_cases heq : id = e.id
  · subst heq
    simp only [Observation.release, Function.update_self]
    rw [if_pos rfl] at hid
    omega
  · simp only [Observation.release, Function.update_of_ne heq]
    rw [if_neg fun h => heq h.symm] at hid
    omega

theorem counted_addRef (h : RefsCounted o positions) (he : e.id < o.nextEntry) :
    RefsCounted (o.addRef e) (e :: positions) := by
  refine ⟨h.increasing, h.listed_lt, ?_, fun id => ?_⟩
  · intro p hp
    rcases List.mem_cons.mp hp with rfl | hp
    · exact he
    · exact h.held_lt p hp
  · have hid := h.refCount id
    rw [heldBy_cons]
    by_cases heq : id = e.id
    · subst heq
      simp only [Observation.addRef, Function.update_self, if_true]
      omega
    · simp only [Observation.addRef, Function.update_of_ne heq]
      rw [if_neg fun h => heq h.symm]
      omega

theorem counted_hold {next : Option BufferEntry} (h : RefsCounted o positions)
    (hnext : ∀ n, next = some n → n ∈ o.sampleList) :
    RefsCounted (o.hold next) (next.toList ++ positions) := by
  cases next with
  | none => exact h
  | some n => exact counted_addRef h (h.listed_lt n (hnext n rfl))

theorem counted_letGo {position : Option BufferEntry}
    (h : RefsCounted o (position.toList ++ positions)) :
    RefsCounted (o.letGo position) positions := by
  cases position with
  | none => exact h
  | some e => exact counted_release h

/-! ### Reads -/

/-- What `le_sls_PeekNext` returns is in the list, whatever it is asked about. -/
def PeeksList (P : Platform) : Prop := ∀ l e n, P.peekNextUnlinked l e = some n → n ∈ l

theorem getNextBufferEntry_mem (hP : PeeksList P) {n : BufferEntry}
    (h : getNextBufferEntry P o e = some n) : n ∈ o.sampleList := by
  unfold getNextBufferEntry at h
  split at h
  · next first rest hdrop =>
    have hmem : n ∈ first :: rest := List.mem_cons_of_mem _ (List.mem_of_head? h)
    rw [← hdrop] at hmem
    exact (List.dropWhile_sublist _).mem hmem
  · exact hP _ _ _ h

theorem counted_catchUp (h : RefsCounted o (e :: positions)) :
    RefsCounted (catchUp o e).1 ((catchUp o e).2.toList ++ positions) := by
  unfold catchUp
  split
  · dsimp only
    have hr := counted_release h
    split
    · next oldest hold => exact counted_addRef hr (hr.listed_lt _ (List.mem_of_head? hold))
    · exact hr
  · exact h

theorem counted_advance (hP : PeeksList P) (h : RefsCounted o (e :: positions)) :
    RefsCounted (advance P o e).1 ((advance P o e).2.toList ++ positions) := by
  rw [advance_eq]
  exact counted_hold (counted_release h) fun n hn => getNextBufferEntry_mem hP hn

theorem counted_loadLoop (hP : PeeksList P) (fuel : Nat) {o : Observation} (op : ReadOperation)
    (h : RefsCounted o (op.nextEntryPtr.toList ++ positions)) :
    Returns (loadLoop P t fuel o op) fun l =>
      RefsCounted l.obs (l.op.nextEntryPtr.toList ++ positions) := by
  induction fuel generalizing o op with
  | zero => exact id
  | succ fuel ih =>
    unfold loadLoop
    split
    · next hnone =>
      rw [hnone] at h
      show RefsCounted o (op.nextEntryPtr.toList ++ positions)
      rw [hnone]
      exact h
    · next parked hparked =>
      rw [hparked] at h
      have hcaught := counted_catchUp h
      generalize catchUp o parked = caught at hcaught
      obtain ⟨o₁, next⟩ := caught
      cases next with
      | none => exact hcaught
      | some e =>
        have hmoved := counted_advance hP hcaught
        refine Sat.bind (Q := fun _ => True) (Returns.of_ok fun _ _ => trivial) fun text _ => ?_
        dsimp only at hmoved ⊢
        cases text with
        | some text => exact hmoved
        | none =>
          exact (ih { op with nextEntryPtr := (advance P o₁ e).2 } hmoved).bind fun l hl => hl

/-- The position of a read after an event, if it goes on. -/
def Continued.position (c : Continued) : Option BufferEntry := c.op.bind (·.nextEntryPtr)

theorem counted_nextState (hP : PeeksList P) {n : Nat}
    (h : RefsCounted o (op.nextEntryPtr.toList ++ positions)) :
    Returns (nextState P t o op n) fun c => RefsCounted c.obs (c.position.toList ++ positions) := by
  unfold nextState
  dsimp only
  split
  · exact h
  · split
    · unfold loadReadOpBuffer
      exact (counted_loadLoop hP _ { op with
        output := _, writeOffset := 0, writeBuffer := [] } h).bind fun l hl => hl
    · exact h
  · exact h
  · exact counted_letGo h

theorem counted_continueReadOp (hP : PeeksList P) (script : List WriteResult) {o : Observation}
    {op : ReadOperation} (h : RefsCounted o (op.nextEntryPtr.toList ++ positions)) :
    Returns (continueReadOp P t script o op) fun c =>
      RefsCounted c.obs (c.position.toList ++ positions) := by
  induction script generalizing o op with
  | nil => exact h
  | cons result script ih =>
    cases result with
    | again => exact h
    | failed => exact counted_letGo h
    | wrote n =>
      unfold continueReadOp
      refine (counted_nextState hP h).bind fun c hc => ?_
      split
      · exact hc
      · next op₁ hop₁ =>
        have hc₁ : RefsCounted c.obs (op₁.nextEntryPtr.toList ++ positions) := by
          unfold Continued.position at hc
          rwa [hop₁] at hc
        exact (ih hc₁).bind fun rest hrest => hrest

/-! ### All steps -/

/-- The references to the entries of an Observation, and the ids of its reads. -/
structure ReferencesOk (o : Observation) : Prop where
  counted : RefsCounted o (positionsOf o.readOpList)
  ids : (o.readOpList.map (·.id)).Nodup

theorem ReferencesOk.bufferActs (h : ReferencesOk o) (hacts : BufferActs o o') :
    ReferencesOk o' := by
  have hreads := readOpList_bufferActs hacts
  refine ⟨?_, ?_⟩ <;> rw [hreads]
  · exact counted_bufferActs hacts h.counted
  · exact h.ids

/-- A read goes back into the list after an event on its descriptor. -/
theorem referencesOk_store {before after : List ReadOperation}
    (hids : ((before ++ op :: after).map (·.id)).Nodup)
    (hc : RefsCounted c.obs (c.position.toList ++ positionsOf (before ++ after)))
    (hid : ∀ op', c.op = some op' → op'.id = op.id) :
    ReferencesOk { c.obs with readOpList := before ++ c.op.toList ++ after } := by
  refine ⟨(hc.perm (positionsOf_perm before after c.op)).congr rfl rfl rfl, ?_⟩
  cases hop : c.op with
  | none =>
    refine hids.sublist ?_
    simp
  | some op' => simpa [hid op' hop] using hids

theorem referencesOk_fdEvent (hP : PeeksList P) (h : ReferencesOk o) (id : Nat) (hangUp : Bool)
    (script : List WriteResult) :
    Returns (readOpFdEventHandler P t o id hangUp script) fun r => ReferencesOk r.1 := by
  unfold readOpFdEventHandler
  split
  · exact h
  · next op hfind =>
    obtain ⟨hid, before, after, hl, hb⟩ := List.find?_eq_some_iff_append.mp hfind
    have hid' : op.id = id := by simpa using hid
    have hids := h.ids
    rw [hl] at hids
    have ha : ∀ r ∈ after, r.id ≠ id := by
      intro r hr heq
      rw [List.map_append, List.map_cons, List.nodup_append] at hids
      exact (List.nodup_cons.mp hids.2.1).1 (List.mem_map.mpr ⟨r, hr, heq.trans hid'.symm⟩)
    have hcounted : RefsCounted o (op.nextEntryPtr.toList ++ positionsOf (before ++ after)) := by
      refine h.counted.perm ?_
      rw [hl]
      simpa using (positionsOf_perm before after (some op)).symm
    generalize (if hangUp = true then [WriteResult.failed] else script) = results
    refine (counted_continueReadOp (t := t) hP results hcounted).and_result.bind ?_
    rintro c ⟨hc, hrun⟩
    obtain ⟨⟨rc, hobs⟩, hids'⟩ := (continueReadOp_frame t results o op).result hrun
    have hlist : c.obs.readOpList = before ++ op :: after := by
      rw [hobs]
      exact hl
    show ReferencesOk (c.store id)
    rw [store_eq hlist hid' (by simpa using hb) ha]
    exact referencesOk_store hids hc hids'

theorem referencesOk_readBufferJson (hP : PeeksList P) (h : ReferencesOk o) {id : Nat}
    (hfresh : ∀ op ∈ o.readOpList, op.id ≠ id) (startAfter : Double) (script : List WriteResult) :
    Returns (obsReadBufferJson P ctx o id startAfter script) fun r => ReferencesOk r.1 := by
  unfold obsReadBufferJson
  dsimp only
  have hheld : RefsCounted (o.hold (findAfter P ctx.env o startAfter))
      ((findAfter P ctx.env o startAfter).toList ++ positionsOf o.readOpList) :=
    counted_hold h.counted fun n hn => findAfter_mem hn
  obtain ⟨rc, hobs⟩ := hold_frame o (findAfter P ctx.env o startAfter)
  rw [hobs] at hheld ⊢
  generalize findAfter P ctx.env o startAfter = start at hheld ⊢
  unfold loadReadOpBuffer
  refine (counted_loadLoop hP _ ⟨id, start, .start, [], 0, [], []⟩ hheld).and_result.bind
    fun l hl => ?_
  obtain ⟨hcounted, hload⟩ := hl
  obtain ⟨⟨rc₁, hobs₁⟩, hlid⟩ := (loadLoop_frame _ _ _ _).result hload
  have hlist : l.obs.readOpList = o.readOpList := by rw [hobs₁]
  have hcounted₁ : RefsCounted { l.obs with readOpList := l.obs.readOpList ++ [l.op] }
      (l.op.nextEntryPtr.toList ++ positionsOf o.readOpList) := hcounted.congr rfl rfl rfl
  refine (counted_continueReadOp hP script hcounted₁).and_result.bind fun c hc => ?_
  obtain ⟨hc, hrun⟩ := hc
  obtain ⟨⟨rc₂, hobs₂⟩, hids⟩ := (continueReadOp_frame _ _ _ _).result hrun
  have hlist₂ : c.obs.readOpList = o.readOpList ++ l.op :: [] := by
    rw [hobs₂, ← hlist]
  have hids₂ : ((o.readOpList ++ [l.op]).map (·.id)).Nodup := by
    rw [List.map_append, List.nodup_append]
    refine ⟨h.ids, by simp, ?_⟩
    rintro _ hx _ hy rfl
    obtain ⟨r, hr, hrid⟩ := List.mem_map.mp hx
    rw [List.map_singleton, List.mem_singleton] at hy
    exact hfresh r hr (hrid.trans (hy.trans hlid))
  show ReferencesOk (c.store id)
  rw [store_eq hlist₂ hlid hfresh (by simp)]
  exact referencesOk_store hids₂ (by simpa using hc) hids

theorem referencesOk_step (hP : PeeksList P) (h : ReferencesOk o) (hs : ObsStep P o evs o') :
    ReferencesOk o' := by
  cases hs with
  | process ctx t s hs hp => exact h.bufferActs ((bufferActs_process o t s).result hp)
  | accept now => exact h.bufferActs (bufferActs_settings rfl rfl rfl rfl)
  | settings => exact h.bufferActs (bufferActs_settings rfl rfl rfl rfl)
  | transform ty ht =>
    refine h.bufferActs (.trans ?_ ((bufferActs_truncateBuffer _ 0).result ht))
    exact bufferActs_settings rfl rfl rfl rfl
  | maxCount ctx count hc => exact h.bufferActs ((bufferActs_setBufferMaxCount o count).result hc)
  | backupPeriod ctx seconds hp =>
    exact h.bufferActs ((bufferActs_setBufferBackupPeriod o seconds).result hp)
  | backup ctx hb => exact h.bufferActs ((bufferActs_backup o).result hb)
  | startRead ctx id hid startAfter script hr =>
    exact (referencesOk_readBufferJson hP h hid startAfter script).result hr
  | fdEvent dataType id hangUp script hf =>
    exact (referencesOk_fdEvent hP h id hangUp script).result hf

theorem referencesOk_obsCreate : ReferencesOk obsCreate := ⟨counted_obsCreate, List.nodup_nil⟩

theorem referencesOk_restored {env : Environment} {content : Bytes} {newest : Option DataSample}
    (h : obsRestoreContent env obsCreate content = .ok (o, evs, newest)) : ReferencesOk o := by
  have hunread := (sat_restoreContent
    (I := fun _ o => o.BufferCore ∧ RefsCounted o [] ∧ o.readOpList = [])
    ?_ ?_ ?_ env content).result h
  · obtain ⟨⟨_, _, hcounted, hreads⟩, _⟩ := hunread
    refine ⟨?_, ?_⟩ <;> rw [hreads]
    · exact hcounted
    · exact List.nodup_nil
  · rintro _ o s hs ⟨hc, hcounted, hreads⟩
    have hacts := bufferActs_addToBuffer o s
    exact ⟨hc.add hs, counted_bufferActs hacts hcounted,
      (readOpList_bufferActs hacts).trans hreads⟩
  · intro t n _
    refine ⟨⟨rfl, List.isChain_nil, ?_⟩, counted_obsCreate.congr rfl rfl rfl, rfl⟩
    simp [Observation.samples, obsCreate]
  · rintro _ o ⟨hc, hcounted, hreads⟩
    refine (sat_truncateBuffer hc.count_eq 0).and_result.mono ?_
    rintro ⟨_, evs⟩ ⟨⟨rc, rfl⟩, ht⟩
    have hacts := (bufferActs_truncateBuffer o 0).result ht
    exact ⟨⟨hc.keepLast 0 rc, counted_bufferActs hacts hcounted, hreads⟩, rfl⟩

/-- The references are right after every run. -/
theorem ObsReachable.referencesOk (hP : PeeksList P) (hr : ObsReachable P log o) :
    ReferencesOk o := by
  induction hr with
  | create => exact referencesOk_obsCreate
  | restore env content h => exact referencesOk_restored h
  | step hr hs ih => exact referencesOk_step hP ih hs

end MangOH.DataHub
