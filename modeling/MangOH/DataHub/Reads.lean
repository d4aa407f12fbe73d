import MangOH.DataHub.ReadSteps
import MangOH.DataHub.Reachability
import MangOH.DataHub.Scenario

/-! Concurrent reads of a sample buffer: each read gets the samples in order, and misses one only if
it fell out of the buffer first. -/
namespace MangOH.DataHub

open Outcome

variable {P : Platform} {ctx : ObsContext} {o o' o'' : Observation} {s : DataSample}
  {t : DataType} {op : ReadOperation} {e : BufferEntry} {positions : List BufferEntry}
  {evs evs' log : List ObsEvent}

/-! ### Steps that are not reads -/

/-- The reads stay where they are; what is in the buffer was there before or is new. -/
structure Quiet (o : Observation) (evs : List ObsEvent) (o' : Observation) : Prop where
  reads : o'.readOpList = o.readOpList
  held : ∀ positions, Held o positions → FewReaders evs → Held o' positions
  kept : ∀ e ∈ o'.sampleList, e ∈ o.sampleList ∨ o.nextEntry ≤ e.id
  nextEntry : o.nextEntry ≤ o'.nextEntry
  notDone : ∀ op result, .readDone op result ∉ evs

theorem Quiet.refl (o : Observation) : Quiet o [] o :=
  ⟨rfl, fun _ h _ => h, fun _ he => .inl he, Nat.le_refl _, fun _ _ => List.not_mem_nil⟩

theorem Quiet.trans (h : Quiet o evs o') (h' : Quiet o' evs' o'') : Quiet o (evs ++ evs') o'' := by
  refine ⟨h'.reads.trans h.reads, ?_, ?_, h.nextEntry.trans h'.nextEntry, ?_⟩
  · intro positions hheld hfew
    exact h'.held positions (h.held positions hheld hfew.left) hfew.right
  · intro e he
    rcases h'.kept e he with he | he
    · exact h.kept e he
    · exact .inr (h.nextEntry.trans he)
  · intro op result hmem
    rcases List.mem_append.mp hmem with hmem | hmem
    · exact h.notDone op result hmem
    · exact h'.notDone op result hmem

/-- Settings, timers and counters are none of the reads' business. -/
theorem Quiet.settings (hl : o'.sampleList = o.sampleList) (hr : o'.refCount = o.refCount)
    (hn : o'.nextEntry = o.nextEntry) (hreads : o'.readOpList = o.readOpList)
    (hdone : ∀ op result, .readDone op result ∉ evs) : Quiet o evs o' :=
  ⟨hreads, fun _ h _ => h.congr hl hr hn, fun _ he => .inl (hl ▸ he), Nat.le_of_eq hn.symm, hdone⟩

theorem quiet_addToBuffer (o : Observation) (s : DataSample) : Quiet o [] (addToBuffer o s) := by
  refine ⟨(sameSettings_addToBuffer o s).readOpList, fun _ h _ => held_addToBuffer h s, ?_, ?_,
    fun _ _ => List.not_mem_nil⟩
  · intro e he
    rcases addToBuffer_cases o s with ⟨ha, _⟩ | ha <;> rw [ha] at he
    · exact .inl he
    · rcases List.mem_append.mp he with he | he
      · exact .inl he
      · rw [List.mem_singleton.mp he]
        exact .inr (Nat.le_refl _)
  · rcases addToBuffer_cases o s with ⟨ha, _⟩ | ha <;> rw [ha]
    exact Nat.le_succ _

theorem quiet_truncateLoop (k : Nat) (o : Observation) :
    Returns (truncateLoop k o) fun r => Quiet o r.2 r.1 := by
  induction k generalizing o with
  | zero => exact .refl o
  | succ k ih =>
    unfold truncateLoop popOldest
    split
    · exact id
    · next e rest hl =>
      have hpop : Quiet o [.evicting (o.refCount e.id)]
          ({ o with sampleList := rest, count := o.count - 1 }.release e) := by
        refine ⟨rfl, fun positions h hfew => ?_, ?_, Nat.le_refl _, by simp⟩
        · exact held_pop h hl (hfew _ (List.mem_singleton.mpr rfl)) _
        · intro e' he'
          refine .inl ?_
          rw [hl]
          exact List.mem_cons_of_mem _ he'
      show Returns (truncateLoop k _ >>= _) _
      exact (ih _).bind fun r hr => hpop.trans hr

theorem quiet_truncateBuffer (o : Observation) (n : Nat) :
    Returns (truncateBuffer o n) fun r => Quiet o r.2 r.1 := quiet_truncateLoop _ o

theorem quiet_backup (o : Observation) : Returns (backup P ctx o) fun r => Quiet o r.2 r.1 := by
  have hquiet : ∀ evs, (∀ op result, .readDone op result ∉ evs) → Quiet o evs
      { o with backupTimer := false, lastBackupTime := ctx.env.relSec % 2 ^ 32 } := fun evs h =>
    .settings rfl rfl rfl rfl h
  unfold backup
  split
  · exact hquiet _ (by simp)
  · split
    · exact hquiet _ (by simp)
    · refine Sat.bind (Q := fun _ => True) (Returns.of_ok fun _ _ => trivial) fun content _ => ?_
      cases content <;> exact hquiet _ (by simp)

theorem quiet_process (o : Observation) (t : DataType) (s : DataSample) :
    Returns (obsProcessAccepted P ctx o t s) fun r => Quiet o r.2 r.1 := by
  have hretype : ∀ o, Returns (obsProcessAccepted.retype t o) fun r => Quiet o r.2 r.1 := by
    intro o
    unfold obsProcessAccepted.retype
    split
    · exact .refl o
    · refine (quiet_truncateBuffer o 0).bind fun r hr => ?_
      have htype : Quiet r.1 [] { r.1 with bufferedType := t } :=
        .settings rfl rfl rfl rfl fun _ _ => List.not_mem_nil
      have := hr.trans htype
      rwa [List.append_nil] at this
  have hsave : ∀ o, Returns (obsProcessAccepted.save P ctx o) fun r => Quiet o r.2 r.1 := by
    intro o
    unfold obsProcessAccepted.save
    split
    · exact .refl o
    · split
      · exact quiet_backup o
      · exact .settings rfl rfl rfl rfl fun _ _ => List.not_mem_nil
  unfold obsProcessAccepted
  split
  · exact .refl o
  · refine (hretype o).bind fun r₁ h₁ => ?_
    refine (quiet_truncateBuffer _ _).bind fun r₂ h₂ => ?_
    refine (hsave _).bind fun r₃ h₃ => ?_
    exact h₁.trans ((quiet_addToBuffer _ s).trans h₂ |>.trans h₃)

theorem quiet_deleteBackup (hl : o'.sampleList = o.sampleList) (hr : o'.refCount = o.refCount)
    (hn : o'.nextEntry = o.nextEntry) (hreads : o'.readOpList = o.readOpList) :
    Quiet o (deleteBackup P ctx) o' := by
  refine .settings hl hr hn hreads fun op result => ?_
  unfold deleteBackup
  split <;> simp

theorem quiet_setBufferMaxCount (o : Observation) (count : UInt32) :
    Returns (obsSetBufferMaxCount P ctx o count) fun r => Quiet o r.2 r.1 := by
  unfold obsSetBufferMaxCount
  split
  · exact .refl o
  · have hdis : Quiet o (if count.toNat = 0 ∧ 0 < o.backupPeriod then
        disableBackups P ctx o else (o, [])).2 (if count.toNat = 0 ∧ 0 < o.backupPeriod then
        disableBackups P ctx o else (o, [])).1 := by
      split
      · exact quiet_deleteBackup rfl rfl rfl rfl
      · exact .refl o
    generalize (if count.toNat = 0 ∧ 0 < o.backupPeriod then
        disableBackups P ctx o else (o, [])) = dis at hdis
    obtain ⟨o₁, disabled⟩ := dis
    have hmax : Quiet o₁ [] { o₁ with maxCount := count.toNat } :=
      .settings rfl rfl rfl rfl fun _ _ => List.not_mem_nil
    refine (quiet_truncateBuffer _ _).bind fun r hr => ?_
    exact hdis.trans (hmax.trans hr)

theorem quiet_setBufferBackupPeriod (o : Observation) (seconds : UInt32) :
    Returns (obsSetBufferBackupPeriod P ctx o seconds) fun r => Quiet o r.2 r.1 := by
  have hperiod : Quiet o [] { o with backupPeriod := seconds.toNat } :=
    .settings rfl rfl rfl rfl fun _ _ => List.not_mem_nil
  unfold obsSetBufferBackupPeriod
  split
  · exact .refl o
  · dsimp only
    split
    · exact hperiod
    · split
      · exact quiet_deleteBackup rfl rfl rfl rfl
      · split
        · exact hperiod
        · split
          · have htimer : Quiet o [] { o with
                backupPeriod := seconds.toNat, backupTimer := false } :=
              .settings rfl rfl rfl rfl fun _ _ => List.not_mem_nil
            exact (quiet_backup _).mono fun r hr => htimer.trans hr
          · exact hperiod

/-! ### All steps -/

/-- A step of an Observation, from the point of view of its reads. -/
inductive ReadsStep (P : Platform) (o : Observation) : List ObsEvent → Observation → Prop
  | quiet {evs : List ObsEvent} {o' : Observation} (h : Quiet o evs o') : ReadsStep P o evs o'
  | event {t : DataType} {before after : List ReadOperation} {op : ReadOperation} {c : Continued}
      (hreads : o.readOpList = before ++ op :: after)
      (hstep : ReadStep P t o op (positionsOf (before ++ after)) c) :
      ReadsStep P o c.events { c.obs with readOpList := before ++ c.op.toList ++ after }
  | start {t : DataType} {op : ReadOperation} {c : Continued} {refCount : Nat → Nat}
      (hfresh : ∀ r ∈ o.readOpList, r.id ≠ op.id)
      (hstep : ReadStep P t { o with refCount } op (positionsOf o.readOpList) c) :
      ReadsStep P o c.events { c.obs with readOpList := o.readOpList ++ c.op.toList }

theorem readsStep_of_obsStep (h : ReadsOk o) (hs : ObsStep P o evs o') : ReadsStep P o evs o' := by
  cases hs with
  | process ctx t s hs hp => exact .quiet ((quiet_process o t s).result hp)
  | accept now => exact .quiet (.settings rfl rfl rfl rfl fun _ _ => List.not_mem_nil)
  | settings => exact .quiet (.settings rfl rfl rfl rfl fun _ _ => List.not_mem_nil)
  | transform ty ht =>
    have hset : Quiet o [] { o with
        transformType := ty
        maxCount := if ty ≠ .none ∧ o.maxCount = 0 then 1 else o.maxCount } :=
      .settings rfl rfl rfl rfl fun _ _ => List.not_mem_nil
    exact .quiet (hset.trans ((quiet_truncateBuffer _ 0).result ht))
  | maxCount ctx count hc => exact .quiet ((quiet_setBufferMaxCount o count).result hc)
  | backupPeriod ctx seconds hp => exact .quiet ((quiet_setBufferBackupPeriod o seconds).result hp)
  | backup ctx hb => exact .quiet ((quiet_backup o).result hb)
  | startRead ctx id hid startAfter script hr =>
    obtain ⟨op, c, rc, rfl, _, _, hstep, heq⟩ :=
      (readBufferJson_step h hid startAfter script).result hr
    cases heq
    exact .start hid hstep
  | fdEvent dataType id hangUp script hf =>
    rcases (fdEventHandler_step h id hangUp script).result hf with
      heq | ⟨before, op, after, c, hl, hstep, heq⟩
    · cases heq
      exact .quiet (.refl o)
    · cases heq
      exact .event hl hstep

theorem readsOk_step (h : ReadsOk o) (hs : ReadsStep P o evs o') (hfew : FewReaders evs) :
    ReadsOk o' := by
  cases hs with
  | quiet hq =>
    refine ⟨?_, ?_, ?_⟩ <;> rw [hq.reads]
    · exact hq.held _ h.held hfew
    · exact h.ids
    · exact h.reads
  | event hreads hstep =>
    have hids := h.ids
    have hall := h.reads
    rw [hreads] at hids hall
    refine readsOk_of_readStep hids (fun r hr => hall r ?_) hstep
    rcases List.mem_append.mp hr with hr | hr
    · exact List.mem_append_left _ hr
    · exact List.mem_append_right _ (List.mem_cons_of_mem _ hr)
  | @start t op c rc hfresh hstep =>
    have hids : ((o.readOpList ++ [op]).map (·.id)).Nodup := by
      rw [List.map_append, List.nodup_append]
      refine ⟨h.ids, by simp, ?_⟩
      rintro _ hx _ hy rfl
      obtain ⟨r, hr, hrid⟩ := List.mem_map.mp hx
      rw [List.map_singleton, List.mem_singleton] at hy
      exact hfresh r hr (hrid.trans hy)
    have hok := readsOk_of_readStep hids
      (fun r hr => h.reads r (by simpa using hr)) (by simpa using hstep)
    simpa using hok

/-! ### What becomes of an entry that a read has still to load -/

/-- A read is going on and the entry is covered; or the read is done, and it has loaded the entry
unless its descriptor failed. -/
def Delivered (o : Observation) (evs : List ObsEvent) (id : Nat) (e : BufferEntry) : Prop :=
  (∃ op ∈ o.readOpList, op.id = id ∧ op.Covers e) ∨
  ∃ op result, .readDone op result ∈ evs ∧ op.id = id ∧
    (result = .ok → e ∈ op.emitted.map (·.1))

theorem ReadStep.delivered {reads : List ReadOperation} {c : Continued}
    (h : ReadStep P t o op positions c) (hrender : AllRender P c.events) (he : e ∈ o.sampleList)
    (hcov : op.Covers e) (hreads : ∀ r, c.op = some r → r ∈ reads) :
    Delivered { c.obs with readOpList := reads } c.events op.id e := by
  cases h with
  | going hid held ordered output loads covers =>
    exact .inl ⟨_, hreads _ rfl, hid, covers hrender e he hcov⟩
  | ended hid held ordered loads output covers =>
    refine .inr ⟨_, .ok, by simp, hid, fun _ => covers (fun ev hev => hrender ev ?_) e he hcov⟩
    exact List.mem_append_left _ hev
  | failed hid held ordered loads =>
    exact .inr ⟨_, .commError, by simp, hid, by simp⟩

theorem sampleList_readStep {c : Continued} (h : ReadStep P t o op positions c) :
    c.obs.sampleList = o.sampleList ∧ c.obs.nextEntry = o.nextEntry := by
  cases h <;> exact ⟨rfl, rfl⟩

/-- An entry that is in the buffer after a step was in it before or is new. -/
theorem ReadsStep.kept (hs : ReadsStep P o evs o') :
    (∀ e ∈ o'.sampleList, e ∈ o.sampleList ∨ o.nextEntry ≤ e.id) ∧ o.nextEntry ≤ o'.nextEntry := by
  cases hs with
  | quiet hq => exact ⟨hq.kept, hq.nextEntry⟩
  | event hreads hstep =>
    obtain ⟨hl, hn⟩ := sampleList_readStep hstep
    exact ⟨fun e he => .inl (hl ▸ he), Nat.le_of_eq hn.symm⟩
  | start hfresh hstep =>
    obtain ⟨hl, hn⟩ := sampleList_readStep hstep
    exact ⟨fun e he => .inl (hl ▸ he), Nat.le_of_eq hn.symm⟩

/-- One step brings every read closer to its end, and loses nothing that is still in the buffer. -/
theorem delivered_step (hs : ReadsStep P o evs o') (hrender : AllRender P evs)
    (hop : op ∈ o.readOpList) (hcov : op.Covers e) (he : e ∈ o.sampleList) :
    Delivered o' evs op.id e := by
  cases hs with
  | quiet hq => exact .inl ⟨op, hq.reads ▸ hop, rfl, hcov⟩
  | @event t before after op₁ c hreads hstep =>
    rw [hreads] at hop
    rcases List.mem_append.mp hop with hop | hop
    · exact .inl ⟨op, by simp [hop], rfl, hcov⟩
    · rcases List.mem_cons.mp hop with rfl | hop
      · exact hstep.delivered hrender he hcov fun r hr => by simp [hr]
      · exact .inl ⟨op, by simp [hop], rfl, hcov⟩
  | start hfresh hstep => exact .inl ⟨op, by simp [hop], rfl, hcov⟩

theorem Delivered.left {id : Nat} (h : Delivered o evs' id e) : Delivered o (evs ++ evs') id e := by
  rcases h with h | ⟨op, result, hmem, h⟩
  · exact .inl h
  · exact .inr ⟨op, result, List.mem_append_right _ hmem, h⟩

/-! ### Runs -/

/-- An unread buffer can always be truncated. -/
theorem fewReaders_truncateLoop (k : Nat) (h : Held o []) :
    Returns (truncateLoop k o) fun r => FewReaders r.2 := by
  induction k generalizing o with
  | zero => exact fun _ hrc => absurd hrc List.not_mem_nil
  | succ k ih =>
    unfold truncateLoop popOldest
    split
    · exact id
    · next e rest hl =>
      have hone : o.refCount e.id = 1 := by
        have hinc := h.increasing
        rw [h.refCount, hl, heldBy_cons]
        rw [hl] at hinc
        have hgone : heldBy rest e.id = 0 := heldBy_eq_zero.mpr fun l hmem =>
          (Nat.ne_of_lt (List.rel_of_pairwise_cons hinc hmem)).symm
        rw [hgone, if_pos rfl]
        rfl
      have hpop := held_pop h hl (by omega) (o.count - 1)
      show Returns (truncateLoop k _ >>= _) _
      refine (ih hpop).bind fun r hr rc hrc => ?_
      rcases List.mem_cons.mp hrc with heq | hrc
      · cases heq
        omega
      · exact hr rc hrc

/-- Nothing reads a buffer that is being restored. -/
theorem readsOk_restored {env : Environment} {content : Bytes} {newest : Option DataSample}
    (h : obsRestoreContent env obsCreate content = .ok (o, evs, newest)) : ReadsOk o := by
  have hunread := (sat_restoreContent
    (I := fun _ o => o.BufferCore ∧ Held o [] ∧ o.readOpList = []) ?_ ?_ ?_ env content).result h
  · obtain ⟨⟨_, _, hheld, hreads⟩, _⟩ := hunread
    refine ⟨?_, ?_, ?_⟩ <;> rw [hreads]
    · exact hheld
    · exact List.nodup_nil
    · exact fun _ hop => absurd hop List.not_mem_nil
  · rintro _ o s hs ⟨hc, hheld, hreads⟩
    exact ⟨hc.add hs, held_addToBuffer hheld s,
      (sameSettings_addToBuffer o s).readOpList.trans hreads⟩
  · intro t n _
    refine ⟨⟨rfl, List.isChain_nil, ?_⟩, held_obsCreate.congr rfl rfl rfl, rfl⟩
    simp [Observation.samples, obsCreate]
  · rintro _ o ⟨hc, hheld, hreads⟩
    refine (sat_truncateBuffer hc.count_eq 0).and_result.mono ?_
    rintro ⟨_, evs⟩ ⟨⟨rc, rfl⟩, ht⟩
    have hfew := (fewReaders_truncateLoop _ hheld).result ht
    exact ⟨⟨hc.keepLast 0 rc, (held_truncateBuffer 0 hheld).result ht hfew, hreads⟩, rfl⟩

/-- The reads are in order after any run in which no entry falls out of the buffer while two of
them are at it. -/
theorem ObsReachable.readsOk (hr : ObsReachable P log o) (hfew : FewReaders log) : ReadsOk o := by
  induction hr with
  | create => exact readsOk_obsCreate
  | restore env content h => exact readsOk_restored h
  | step hr hs ih =>
    exact readsOk_step (ih hfew.left) (readsStep_of_obsStep (ih hfew.left) hs) hfew.right

/-- What a read has written and loaded when it is done. -/
def DoneOk (evs : List ObsEvent) : Prop :=
  ∀ op result, .readDone op result ∈ evs →
    op.Ordered ∧ (result = .ok → op.output = jsonArray op.texts)

theorem DoneOk.append (h : DoneOk evs) (h' : DoneOk evs') : DoneOk (evs ++ evs') := by
  intro op result hmem
  rcases List.mem_append.mp hmem with hmem | hmem
  · exact h op result hmem
  · exact h' op result hmem

theorem ReadStep.doneOk {c : Continued} (h : ReadStep P t o op positions c) : DoneOk c.events := by
  have hloads : ∀ {evs}, Loads t o evs → ∀ op result, .readDone op result ∉ evs := by
    intro evs hl op result hmem
    obtain ⟨_, _, heq⟩ := hl _ hmem
    cases heq
  intro op' result hmem
  cases h with
  | going _ _ _ _ loads => exact absurd hmem (hloads loads op' result)
  | ended _ _ ordered loads output =>
    rcases List.mem_append.mp hmem with hmem | hmem
    · exact absurd hmem (hloads loads op' result)
    · cases List.mem_singleton.mp hmem
      exact ⟨ordered, fun _ => output⟩
  | failed _ _ ordered loads =>
    rcases List.mem_append.mp hmem with hmem | hmem
    · exact absurd hmem (hloads loads op' result)
    · cases List.mem_singleton.mp hmem
      exact ⟨ordered, by simp⟩

theorem ReadsStep.doneOk (hs : ReadsStep P o evs o') : DoneOk evs := by
  cases hs with
  | quiet hq => exact fun op result hmem => absurd hmem (hq.notDone op result)
  | event _ hstep => exact hstep.doneOk
  | start _ hstep => exact hstep.doneOk

/-- A run keeps the reads in order and never brings an entry back. -/
theorem readsOk_run (h : ReadsOk o) (hrun : ObsRun P o evs o') (hfew : FewReaders evs) :
    ReadsOk o' ∧ o.nextEntry ≤ o'.nextEntry ∧ DoneOk evs := by
  induction hrun with
  | refl => exact ⟨h, Nat.le_refl _, fun _ _ hmem => absurd hmem List.not_mem_nil⟩
  | step hrun hs ih =>
    obtain ⟨h₁, hnext, hdone⟩ := ih hfew.left
    have hstep := readsStep_of_obsStep h₁ hs
    exact ⟨readsOk_step h₁ hstep hfew.right, hnext.trans hstep.kept.2, hdone.append hstep.doneOk⟩

/-- An entry that a read covers, and that is still in the buffer after a run, is not lost. -/
theorem delivered_run (h : ReadsOk o) (hrun : ObsRun P o evs o') (hfew : FewReaders evs)
    (hrender : AllRender P evs) {id : Nat} (hcov : Delivered o [] id e) (he : e ∈ o.sampleList)
    (he' : e ∈ o'.sampleList) : Delivered o' evs id e := by
  induction hrun with
  | refl => exact hcov
  | @step o₁ o₂ log evs hrun hs ih =>
    obtain ⟨h₁, hnext, _⟩ := readsOk_run h hrun hfew.left
    have hstep := readsStep_of_obsStep h₁ hs
    have he₁ : e ∈ o₁.sampleList := by
      rcases hstep.kept.1 e he' with he₁ | hnew
      · exact he₁
      · have := h.held.listed_lt e he
        omega
    have hrender₁ : AllRender P log := fun ev hev => hrender ev (List.mem_append_left _ hev)
    have hrender₂ : AllRender P evs := fun ev hev => hrender ev (List.mem_append_right _ hev)
    rcases ih hfew.left hrender₁ he₁ with ⟨op, hop, rfl, hcov₁⟩ | ⟨op, result, hmem, hdone⟩
    · exact (delivered_step hstep hrender₂ hop hcov₁ he₁).left
    · exact .inr ⟨op, result, List.mem_append_left _ hmem, hdone⟩

/-! ### Nothing is lost -/

/-- No entry falls out of a buffer while two reads are at it, and each sample that is loaded fits
the write buffer. -/
def keepsReads (P : Platform) : ObsEvent → Bool
  | .evicting refCount => decide (refCount ≤ 2)
  | ev => renders P ev

theorem fewReaders_of_keepsReads (h : ∀ ev ∈ evs, keepsReads P ev = true) : FewReaders evs :=
  fun _ hrc => of_decide_eq_true (h _ hrc)

theorem allRender_of_keepsReads (h : ∀ ev ∈ evs, keepsReads P ev = true) : AllRender P evs := by
  intro ev hev
  cases ev with
  | evicting => rfl
  | _ => exact h _ hev

/-- In every run of an Observation whose events are all right: reads load entries in the order of
the buffer and write just what they load; an entry that a read has before it is not lost to it
while the entry is in the buffer; and a new read has before it all entries from its start on. -/
structure ReadsDeliver (P : Platform) (Ok : ObsEvent → Prop) (o : Observation) : Prop where
  ordered : ∀ o' evs, ObsRun P o evs o' → (∀ ev ∈ evs, Ok ev) →
    o'.sampleList.Pairwise (fun a b => a.id < b.id) ∧ (∀ op ∈ o'.readOpList, op.Ordered) ∧
    DoneOk evs
  going : ∀ o' evs, ObsRun P o evs o' → (∀ ev ∈ evs, Ok ev) →
    ∀ op ∈ o.readOpList, ∀ e ∈ o.sampleList, op.Covers e → e ∈ o'.sampleList →
      Delivered o' evs op.id e
  started : ∀ ctx id startAfter script o₁ evs₁ o' evs, (∀ op ∈ o.readOpList, op.id ≠ id) →
    obsReadBufferJson P ctx o id startAfter script = .ok (o₁, evs₁) → ObsRun P o₁ evs o' →
    (∀ ev ∈ evs₁ ++ evs, Ok ev) → ∀ start, findAfter P ctx.env o startAfter = some start →
    ∀ e ∈ o.sampleList, start.id ≤ e.id → e ∈ o'.sampleList → Delivered o' (evs₁ ++ evs) id e

theorem delivered_start (h : ReadsOk o) {id : Nat} (hfresh : ∀ op ∈ o.readOpList, op.id ≠ id)
    {startAfter : Double} {script : List WriteResult} {start : BufferEntry}
    (hread : obsReadBufferJson P ctx o id startAfter script = .ok (o', evs))
    (hrender : AllRender P evs) (hstart : findAfter P ctx.env o startAfter = some start)
    (he : e ∈ o.sampleList) (hle : start.id ≤ e.id) :
    Delivered o' evs id e ∧ e ∈ o'.sampleList := by
  obtain ⟨op, c, _, rfl, _, hnext, hstep, heq⟩ :=
    (readBufferJson_step h hfresh startAfter script).result hread
  cases heq
  have hcov : op.Covers e := .inl ⟨start, hnext.trans hstart, hle⟩
  refine ⟨hstep.delivered hrender he hcov fun r hr => by simp [hr], ?_⟩
  show e ∈ c.obs.sampleList
  rw [(sampleList_readStep hstep).1]
  exact he

theorem readsDeliver_of_readsOk (h : ReadsOk o) :
    ReadsDeliver P (keepsReads P · = true) o := by
  refine ⟨?_, ?_, ?_⟩
  · intro o' evs hrun hok
    obtain ⟨h', _, hdone⟩ := readsOk_run h hrun (fewReaders_of_keepsReads hok)
    exact ⟨h'.held.increasing, fun op hop => (h'.reads op hop).1, hdone⟩
  · intro o' evs hrun hok op hop e he hcov he'
    exact delivered_run h hrun (fewReaders_of_keepsReads hok) (allRender_of_keepsReads hok)
      (.inl ⟨op, hop, rfl, hcov⟩) he he'
  · intro ctx id startAfter script o₁ evs₁ o' evs hfresh hread hrun hok start hstart e he hle he'
    have hfew := fewReaders_of_keepsReads hok
    have hrender := allRender_of_keepsReads hok
    obtain ⟨hdel, he₁⟩ := delivered_start h hfresh hread
      (fun ev hev => hrender ev (List.mem_append_left _ hev)) hstart he hle
    rcases hdel with hgoing | ⟨op, result, hmem, hdone⟩
    · have hstep := readsStep_of_obsStep h (.startRead ctx id hfresh startAfter script hread)
      have h₁ := readsOk_step h hstep hfew.left
      exact (delivered_run h₁ hrun hfew.right
        (fun ev hev => hrender ev (List.mem_append_right _ hev)) (.inl hgoing) he₁ he').left
    · exact .inr ⟨op, result, List.mem_append_left _ hmem, hdone⟩

/-- No read of an Observation of the hub loses a sample as long as no entry falls out of the buffer
while two reads are at it. -/
theorem reads_deliver {h : Hub} {r : ResRef} {x : Resource} (hr : Reachable P h)
    (hok : ∀ q ev, .obs q ev ∈ h.log → keepsReads P ev = true) (hx : h.resources r = some x)
    (ho : x.cls = .observation o) : ReadsDeliver P (keepsReads P · = true) o := by
  obtain ⟨log, hlog, hall⟩ := observation_reachable _ hr hok hx ho
  exact readsDeliver_of_readsOk (hlog.readsOk (fewReaders_of_keepsReads hall))

/-- Two reads wait at the second oldest of two samples, and the oldest one falls out. -/
def twoReadsRun : List Op :=
  [.adminCreateObs (ascii "o"),
   .adminSetBufferMaxCount (ascii "o") 2,
   .adminPush (ascii "/obs/o") (double 1) (.numeric (double 10)),
   .adminPush (ascii "/obs/o") (double 2) (.numeric (double 20)),
   .queryReadBufferJson (ascii "o") .nan true [],
   .queryReadBufferJson (ascii "o") .nan true [],
   .adminPush (ascii "/obs/o") (double 3) (.numeric (double 30))]

theorem reads_deliver_twoReadsRun : ∃ h x o, Reachable smallPlatform h ∧
    h.resources 0 = some x ∧ x.cls = .observation o ∧ o.readOpList.length = 2 ∧
    ReadsDeliver smallPlatform (keepsReads smallPlatform · = true) o := by
  have hrun : smallRunEnds twoReadsRun (fun h => h.allObs (keepsReads smallPlatform) &&
      (h.observation 0).any fun o => o.readOpList.length = 2) = true := by
    decide +kernel
  obtain ⟨h, hr, hp⟩ := exists_of_smallRunEnds hrun
  rw [Bool.and_eq_true, Option.any_eq_true] at hp
  obtain ⟨hok, o, ho, hlen⟩ := hp
  obtain ⟨x, hx, hcls⟩ := observation_eq_some ho
  exact ⟨h, x, o, hr, hx, hcls, of_decide_eq_true hlen,
    reads_deliver hr (of_allObs hok) hx hcls⟩

/-- The next push, which evicts the sample that both reads wait at, and then the first read. -/
def evictAndRead (o : Observation) : Except Fault (Observation × List ObsEvent) := do
  let ctx : ObsContext := ⟨smallEnvironment, some (ascii "o"), .numeric⟩
  let pushed ← obsProcessAccepted smallPlatform ctx o .numeric
    ⟨double 4, .numeric (double 40), [], 0⟩
  let read ← readOpFdEventHandler smallPlatform .numeric pushed.1 0 false
    (List.replicate 20 (.wrote 99))
  pure (read.1, pushed.2 ++ read.2)

theorem obsRun_evictAndRead (h : evictAndRead o = .ok (o', evs)) :
    ObsRun smallPlatform o evs o' := by
  obtain ⟨pushed, hpush, h⟩ := bind_eq_ok.mp h
  obtain ⟨read, hread, h⟩ := bind_eq_ok.mp h
  cases h
  have hrun := ObsRun.step (.refl o) (.process _ .numeric _ rfl hpush)
  rw [List.nil_append] at hrun
  exact hrun.step (.fdEvent .numeric 0 false _ hread)

/-- The first read is done and has not loaded the sample with this id. -/
def missed (id : Nat) (o : Observation) (evs : List ObsEvent) : Bool :=
  o.readOpList.all (·.id ≠ 0) && evs.all fun ev =>
    match ev with
    | .readDone op result => op.id ≠ 0 || result = .ok && op.emitted.all (·.1.id ≠ id)
    | _ => true

theorem not_delivered_of_missed {id : Nat} (h : missed e.id o evs = true) (hid : id = 0) :
    ¬ Delivered o evs id e := by
  subst hid
  simp only [missed, Bool.and_eq_true, List.all_eq_true, decide_eq_true_eq] at h
  rintro (⟨op, hop, hid, _⟩ | ⟨op, result, hmem, hid, hdone⟩)
  · exact h.1 op hop hid
  · have hmiss := h.2 _ hmem
    simp only [hid, ne_eq, not_true_eq_false, decide_false, Bool.false_or, Bool.and_eq_true,
      decide_eq_true_eq, List.all_eq_true] at hmiss
    obtain ⟨p, hp, rfl⟩ := List.mem_map.mp (hdone hmiss.1)
    exact hmiss.2 p hp rfl

theorem reads_deliver_fails : ∃ h x o, Reachable smallPlatform h ∧ h.resources 0 = some x ∧
    x.cls = .observation o ∧ ¬ ReadsDeliver smallPlatform (fun _ => True) o := by
  have hrun : smallRunEnds twoReadsRun (fun h => (h.observation 0).any fun o =>
      passes (evictAndRead o) fun r => o.readOpList.any fun op => op.id = 0 &&
        o.sampleList.any fun e => op.nextEntryPtr.any (·.id ≤ e.id) &&
          r.1.sampleList.contains e && missed e.id r.1 r.2) = true := by
    decide +kernel
  obtain ⟨h, hr, hp⟩ := exists_of_smallRunEnds hrun
  obtain ⟨o, ho, hp⟩ := (Option.any_eq_true _ _).mp hp
  obtain ⟨x, hx, hcls⟩ := observation_eq_some ho
  refine ⟨h, x, o, hr, hx, hcls, fun hdel => ?_⟩
  obtain ⟨⟨o', evs⟩, heq, hp⟩ := passes_iff.mp hp
  simp only [List.any_eq_true, Bool.and_eq_true, decide_eq_true_eq, Option.any_eq_true,
    List.contains_iff_mem] at hp
  obtain ⟨op, hop, hid, e, he, ⟨hcov, he'⟩, hmissed⟩ := hp
  obtain ⟨p, hp, hle⟩ := hcov
  exact not_delivered_of_missed hmissed hid
    (hdel.going o' evs (obsRun_evictAndRead heq) (fun _ _ => trivial) op hop e he
      (.inl ⟨p, hp, hle⟩) he')

end MangOH.DataHub
