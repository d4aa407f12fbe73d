import MangOH.DataHub.References
import MangOH.DataHub.BufferContent

/-! The byte stream of a read does not depend on how the descriptor splits it: while the buffer
stays as it is, what is accepted is the array of its samples. -/
namespace MangOH.DataHub

open Outcome

variable {P : Platform} {ctx : ObsContext} {o o' : Observation} {t : DataType}
  {op op' : ReadOperation} {e : BufferEntry} {positions : List BufferEntry}
  {evs log : List ObsEvent}
  {c : Continued} {array : CString} {id : Nat}

/-- What one call of `write` returns: some bytes are accepted, as in `WriteResult`, or it fails. -/
inductive SysWrite
  | wrote (n : Nat)
  | interrupted
  | again
  | failed
deriving DecidableEq, Repr

/-- `WriteToFd` calls `write` again when it was interrupted. -/
def SysWrite.result : SysWrite → Option WriteResult
  | .wrote n => some (.wrote n)
  | .interrupted => none
  | .again => some .again
  | .failed => some .failed

/-- The results of the calls of `WriteToFd` that make these calls of `write`. -/
def writeToFd (calls : List SysWrite) : List WriteResult := calls.filterMap (·.result)

def WriteResult.accepts : WriteResult → Bool
  | .wrote _ => true
  | _ => false

/-- How many writes are accepted before the descriptor would block. -/
def acceptedWrites (results : List WriteResult) : Nat := (results.takeWhile (·.accepts)).length

theorem failed_notMem_writeToFd {calls : List SysWrite} (h : .failed ∉ calls) :
    .failed ∉ writeToFd calls := by
  intro hmem
  obtain ⟨call, hcall, hresult⟩ := List.mem_filterMap.mp hmem
  cases call <;> simp_all [SysWrite.result]

/-- The texts that a read writes of these entries; those that do not fit are left out. -/
def renderAll (P : Platform) (t : DataType) : List BufferEntry → Except Fault (List CString)
  | [] => pure []
  | e :: rest => do
    let text ← renderEntry P t e.sampleRef
    let others ← renderAll P t rest
    pure (text.toList ++ others)

/-- The entries from a position on. -/
def ahead (o : Observation) : Option BufferEntry → List BufferEntry
  | some e => o.sampleList.dropWhile (·.id ≠ e.id)
  | none => []

/-- The reads that end, with their results. -/
def endsOf (id : Nat) (evs : List ObsEvent) : List (ReadOperation × LeResult) :=
  (evs.filterMap (·.ends)).filter fun done => done.1.id = id

/-- What happens to an Observation while one of its reads is going on and nothing changes the
buffer: events on the read's descriptor, which never fails, and steps that do not concern it. The
number is that of the writes accepted. -/
inductive Unbroken (P : Platform) (t : DataType) (id : Nat) (o : Observation) :
    Nat → List ObsEvent → Observation → Prop
  | refl : Unbroken P t id o 0 [] o
  | own {n : Nat} {log evs : List ObsEvent} {o₁ o₂ : Observation}
      (hr : Unbroken P t id o n log o₁) (calls : List SysWrite) (hcalls : .failed ∉ calls)
      (h : readOpFdEventHandler P t o₁ id false (writeToFd calls) = .ok (o₂, evs)) :
      Unbroken P t id o (n + acceptedWrites (writeToFd calls)) (log ++ evs) o₂
  | other {n : Nat} {log evs : List ObsEvent} {o₁ o₂ : Observation}
      (hr : Unbroken P t id o n log o₁) (hs : ObsStep P o₁ evs o₂)
      (hbuffer : o₂.sampleList = o₁.sampleList)
      (hread : ∀ op, op.id = id → (op ∈ o₂.readOpList ↔ op ∈ o₁.readOpList))
      (hends : endsOf id evs = []) : Unbroken P t id o n (log ++ evs) o₂

/-! ### One read -/

/-- What a read has still to write, if the samples before it have these texts. -/
def ReadOperation.rest (op : ReadOperation) (texts : List CString) : CString :=
  pendingBytes op ++ later
where
  others : CString := texts.flatMap (ascii "," ++ ·) ++ ascii "]"
  later : CString :=
    match op.state with
    | .start | .comma => op.writeBuffer ++ others
    | .sample => others
    | .closing => []

/-- The state of a read agrees with what is in its write buffer. -/
def ReadOperation.Ready (op : ReadOperation) : Prop :=
  match op.state with
  | .start => op.writeOffset = 0 ∧ (op.writeBuffer = [] → op.nextEntryPtr = none)
  | .sample => op.writeOffset < op.writeBuffer.length
  | .comma => op.writeOffset = 0 ∧ op.writeBuffer ≠ []
  | .closing => op.nextEntryPtr = none

/-- What a read has written and what it has still to write make up the array. -/
def Framed (P : Platform) (t : DataType) (o : Observation) (op : ReadOperation)
    (array : CString) : Prop :=
  ∃ left texts, left <:+ o.sampleList ∧ op.nextEntryPtr = left.head? ∧
    renderAll P t left = .ok texts ∧ op.Ready ∧ op.output ++ op.rest texts = array

theorem framed_of_state (left : List BufferEntry) (texts : List CString)
    (hleft : left <:+ o.sampleList) (hptr : op.nextEntryPtr = left.head?)
    (htexts : renderAll P t left = .ok texts) (hready : op.Ready)
    (harray : op.output ++ op.rest texts = array) : Framed P t o op array :=
  ⟨left, texts, hleft, hptr, htexts, hready, harray⟩

theorem Framed.congr (h : Framed P t o op array) (hl : o'.sampleList = o.sampleList) :
    Framed P t o' op array := by
  unfold Framed
  rw [hl]
  exact h

theorem pendingBytes_pos (h : op.Ready) :
    0 < (pendingBytes op).length := by
  unfold ReadOperation.Ready at h
  unfold pendingBytes
  cases hs : op.state <;> rw [hs] at h
  · simp [ascii]
  · simp only [List.length_drop]
    omega
  · simp [ascii]
  · simp [ascii]

/-- A read that is going on has not written all. -/
theorem Framed.unfinished (h : Framed P t o op array) :
    op.output <+: array ∧ op.output.length < array.length := by
  obtain ⟨left, texts, _, _, _, hready, harray⟩ := h
  have hpos := pendingBytes_pos hready
  refine ⟨⟨_, harray⟩, ?_⟩
  rw [← harray, ReadOperation.rest]
  simp only [List.length_append]
  omega

/-- The entry a read stands at is taken to be in the buffer, as it is. -/
theorem catchUp_listed (h : RefsCounted o (e :: positions)) (he : e ∈ o.sampleList) :
    catchUp o e = (o, some e) := by
  have hcount := h.refCount e.id
  have hlisted := heldBy_pos he
  rw [heldBy_cons, if_pos rfl] at hcount
  unfold catchUp
  rw [if_neg (by omega)]

theorem next_of_suffix {rest : List BufferEntry} (h : RefsCounted o positions)
    (hleft : e :: rest <:+ o.sampleList) : getNextBufferEntry P o e = rest.head? := by
  obtain ⟨before, hsplit⟩ := hleft
  have hinc := h.increasing
  rw [← hsplit, List.pairwise_append] at hinc
  unfold getNextBufferEntry
  rw [← hsplit, List.dropWhile_append_of_pos]
  · simp
  · intro l hl
    simpa using Nat.ne_of_lt (hinc.2.2 l hl e (List.mem_cons_self ..))

theorem renderAll_cons {rest : List BufferEntry} {texts : List CString}
    (h : renderAll P t (e :: rest) = .ok texts) :
    ∃ text others, renderEntry P t e.sampleRef = .ok text ∧ renderAll P t rest = .ok others ∧
      texts = text.toList ++ others := by
  unfold renderAll at h
  obtain ⟨text, htext, h⟩ := bind_eq_ok.mp h
  obtain ⟨others, hothers, h⟩ := bind_eq_ok.mp h
  cases h
  exact ⟨text, others, htext, hothers, rfl⟩

/-- A load takes the next sample that can be printed. -/
structure LoadsNext (P : Platform) (t : DataType) (o : Observation) (texts : List CString)
    (l : Loaded) : Prop where
  position : ∃ left others, left <:+ o.sampleList ∧ l.op.nextEntryPtr = left.head? ∧
    renderAll P t left = .ok others ∧
    (l.found = true ∧ texts = l.op.writeBuffer :: others ∧ l.op.writeBuffer ≠ [] ∨
      l.found = false ∧ texts = [] ∧ others = [] ∧ l.op.nextEntryPtr = none)

theorem loadLoop_next (fuel : Nat) {o : Observation} (op : ReadOperation)
    {left : List BufferEntry} {texts : List CString}
    (h : RefsCounted o (op.nextEntryPtr.toList ++ positions)) (hleft : left <:+ o.sampleList)
    (hpos : op.nextEntryPtr = left.head?) (htexts : renderAll P t left = .ok texts)
    (hfuel : left.length < fuel) :
    Sat (fun _ => True) (loadLoop P t fuel o op) (LoadsNext P t o texts) := by
  induction fuel generalizing o op left texts with
  | zero => omega
  | succ fuel ih =>
    cases left with
    | nil =>
      cases htexts
      unfold loadLoop
      rw [hpos]
      exact ⟨[], [], hleft, hpos, rfl, .inr ⟨rfl, rfl, rfl, hpos⟩⟩
    | cons e rest =>
      have hmem : e ∈ o.sampleList := hleft.mem (List.mem_cons_self ..)
      have hrest : rest <:+ o.sampleList := (List.suffix_cons e rest).trans hleft
      obtain ⟨text, others, htext, hothers, rfl⟩ := renderAll_cons htexts
      have hpos' : op.nextEntryPtr = some e := hpos
      rw [hpos'] at h
      have hnext : getNextBufferEntry P o e = rest.head? := next_of_suffix h hleft
      have hcounted : RefsCounted (advance P o e).1 (rest.head?.toList ++ positions) := by
        rw [advance_eq, hnext]
        exact counted_hold (counted_release h) fun n hn => hrest.mem (List.mem_of_head? hn)
      have hmoved : (advance P o e).2 = rest.head? := by rw [advance_eq, hnext]
      obtain ⟨rc, hobs⟩ := advance_frame P o e
      unfold loadLoop
      simp only [hpos', catchUp_listed h hmem, htext, ok_bind]
      cases text with
      | some text =>
        exact ⟨rest, others, hrest, hmoved, hothers,
          .inl ⟨rfl, rfl, renderEntry_ne_nil htext⟩⟩
      | none =>
        rw [hobs] at hcounted
        simp only [hobs, hmoved]
        have hstep := ih (o := { o with refCount := rc }) { op with nextEntryPtr := rest.head? }
          hcounted hrest rfl hothers
          (by simp only [List.length_cons] at hfuel; omega)
        exact hstep.bind fun l hl => ⟨hl.position⟩

theorem length_le_of_suffix {left : List BufferEntry} (h : left <:+ o.sampleList) :
    left.length < o.sampleList.length + 2 := by
  have := h.length_le
  omega

/-- What an event comes to for a framed read: it goes on, or it has written the array. The number is
that of the writes made. -/
inductive FrameStep (P : Platform) (t : DataType) (o : Observation) (op : ReadOperation)
    (array : CString) (n : Nat) : Continued → Prop
  | going {refCount : Nat → Nat} {op' : ReadOperation} {evs : List ObsEvent} (hid : op'.id = op.id)
      (framed : Framed P t o op' array) (more : op.output.length + n ≤ op'.output.length)
      (hevs : NoEnds evs) : FrameStep P t o op array n ⟨{ o with refCount }, some op', evs⟩
  | ended {refCount : Nat → Nat} {op' : ReadOperation} {evs : List ObsEvent} (hid : op'.id = op.id)
      (hout : op'.output = array) (hevs : NoEnds evs) :
      FrameStep P t o op array n ⟨{ o with refCount }, none, evs ++ [.readDone op' .ok]⟩

theorem FrameStep.same (hid : op'.id = op.id) (framed : Framed P t o op' array) {n : Nat}
    (more : op.output.length + n ≤ op'.output.length) :
    FrameStep P t o op array n ⟨o, some op', []⟩ := by
  show FrameStep P t o op array n ⟨{ o with refCount := o.refCount }, some op', []⟩
  exact .going hid framed more noEnds_nil

theorem FrameStep.trans {refCount : Nat → Nat} {n m : Nat} (hid : op'.id = op.id)
    (more : op.output.length + n ≤ op'.output.length) (hevs : NoEnds evs)
    (h : FrameStep P t { o with refCount } op' array m c) :
    FrameStep P t o op array (n + m) { c with events := evs ++ c.events } := by
  cases h with
  | going hid' framed more' hevs' =>
    exact .going (hid'.trans hid) (framed.congr rfl) (by omega) (hevs.append hevs')
  | ended hid' hout hevs' =>
    rw [← List.append_assoc]
    exact .ended (hid'.trans hid) hout (hevs.append hevs')

/-- After the last byte of a text has been written, the next one is loaded. -/
theorem load_framed (op : ReadOperation)
    (h : RefsCounted o (op.nextEntryPtr.toList ++ positions))
    {left : List BufferEntry} {texts : List CString} (hleft : left <:+ o.sampleList)
    (hpos : op.nextEntryPtr = left.head?) (htexts : renderAll P t left = .ok texts)
    (harray : op.output ++ (texts.flatMap (ascii "," ++ ·) ++ ascii "]") = array) :
    Sat (fun _ => True) (loadReadOpBuffer P t o op) fun l =>
      (∃ refCount, l.obs = { o with refCount }) ∧ l.op.id = op.id ∧ l.op.output = op.output ∧
      NoEnds l.events ∧
      Framed P t o { l.op with state := if l.found then .comma else .closing } array := by
  unfold loadReadOpBuffer
  have hnext := loadLoop_next (P := P) (t := t) (o.sampleList.length + 2)
    { op with writeBuffer := [], writeOffset := 0 } h hleft hpos htexts
    (length_le_of_suffix hleft)
  refine hnext.and_result.mono ?_
  rintro l ⟨⟨left', others, hleft', hpos', hothers, hcases⟩, hload⟩
  obtain ⟨hobs, ⟨next, wb, em, hop⟩, hends, _, _⟩ := (loadLoop_text _ _ _).result hload
  rw [hop] at hpos' hcases ⊢
  dsimp only at hpos' hcases ⊢
  refine ⟨hobs, rfl, rfl, hends, left', others, hleft', hpos', hothers, ?_, ?_⟩
  · rcases hcases with ⟨hfound, _, hwb⟩ | ⟨hfound, _, _, hnone⟩
    · rw [hfound]
      exact ⟨rfl, hwb⟩
    · rw [hfound]
      exact hnone
  · rw [← harray]
    rcases hcases with ⟨hfound, rfl, hwb⟩ | ⟨hfound, rfl, rfl, hnone⟩ <;>
      simp [hfound, ReadOperation.rest, ReadOperation.rest.later, ReadOperation.rest.others,
        pendingBytes]

theorem renderAll_head?_none {left : List BufferEntry} {texts : List CString}
    (h : renderAll P t left = .ok texts) (hnone : left.head? = none) : texts = [] := by
  rw [List.head?_eq_none_iff.mp hnone] at h
  cases h
  rfl

/-- One write, and the change of state that follows it. -/
theorem nextState_framed (hc : RefsCounted o (op.nextEntryPtr.toList ++ positions))
    (h : Framed P t o op array) {n : Nat} (hpos : 0 < n) (hn : n ≤ (pendingBytes op).length) :
    Sat (fun _ => True) (nextState P t o op n) (FrameStep P t o op array 1) := by
  obtain ⟨left, texts, hleft, hptr, htexts, hready, harray⟩ := h
  unfold ReadOperation.Ready at hready
  unfold nextState
  cases hstate : op.state with
  | start =>
    rw [hstate] at hready
    simp only [pendingBytes, hstate, take_single (b := ascii "[") rfl hpos]
    simp only [ReadOperation.rest, ReadOperation.rest.later, ReadOperation.rest.others,
      pendingBytes, hstate] at harray
    refine FrameStep.same ?_ (framed_of_state left texts hleft ?_ htexts ?_ ?_) ?_
    · rfl
    · exact hptr
    · unfold ReadOperation.Ready
      by_cases hwb : op.writeBuffer = []
      · simp only [hwb, if_true]
        exact hready.2 hwb
      · simp only [hwb, if_false]
        rw [hready.1]
        exact List.length_pos_iff.mpr hwb
    · by_cases hwb : op.writeBuffer = []
      · have hnone := renderAll_head?_none htexts (hptr ▸ hready.2 hwb)
        subst hnone
        simp only [ReadOperation.rest, ReadOperation.rest.later, pendingBytes, hwb, if_true]
        rw [← harray, hwb]
        simp
      · simp only [ReadOperation.rest, ReadOperation.rest.later, ReadOperation.rest.others,
          pendingBytes, hwb, if_false, hready.1, List.drop_zero]
        rw [← harray]
        simp
    · simp [ascii]
  | sample =>
    rw [hstate] at hready
    have hpending : pendingBytes op = op.writeBuffer.drop op.writeOffset := by
      simp [pendingBytes, hstate]
    rw [hpending, List.length_drop] at hn
    simp only [ReadOperation.rest, ReadOperation.rest.later, ReadOperation.rest.others,
      hpending, hstate] at harray
    simp only [hpending]
    split
    · next hfull =>
      have hall : (op.writeBuffer.drop op.writeOffset).take n =
          op.writeBuffer.drop op.writeOffset :=
        List.take_of_length_le (by rw [List.length_drop]; omega)
      rw [← List.append_assoc] at harray
      simp only [hall]
      refine (load_framed { op with
        output := op.output ++ op.writeBuffer.drop op.writeOffset, state := .sample,
        writeOffset := op.writeOffset + n } hc hleft hptr htexts harray).bind ?_
      rintro ⟨_, op₁, evs, found⟩ ⟨⟨rc, rfl⟩, hid, hout, hends, hframed⟩
      dsimp only at hid hout hends hframed
      refine .going hid hframed ?_ hends
      simp only [hout, List.length_append, List.length_drop]
      omega
    · next hpart =>
      refine FrameStep.same ?_ (framed_of_state left texts hleft ?_ htexts ?_ ?_) ?_
      · rfl
      · exact hptr
      · simp only [ReadOperation.Ready]
        omega
      · simp only [ReadOperation.rest, ReadOperation.rest.later, ReadOperation.rest.others,
          pendingBytes]
        rw [← harray, ← List.drop_drop, List.append_assoc]
        congr 1
        rw [← List.append_assoc, List.take_append_drop]
      · simp only [List.length_append, List.length_take, List.length_drop]
        omega
  | comma =>
    rw [hstate] at hready
    simp only [pendingBytes, hstate, take_single (b := ascii ",") rfl hpos]
    simp only [ReadOperation.rest, ReadOperation.rest.later, ReadOperation.rest.others,
      pendingBytes, hstate] at harray
    refine FrameStep.same ?_ (framed_of_state left texts hleft ?_ htexts ?_ ?_) ?_
    · rfl
    · exact hptr
    · simp only [ReadOperation.Ready, hready.1]
      exact List.length_pos_iff.mpr hready.2
    · simp only [ReadOperation.rest, ReadOperation.rest.later, ReadOperation.rest.others,
        pendingBytes, hready.1, List.drop_zero]
      rw [← harray]
      simp
    · simp [ascii]
  | closing =>
    rw [hstate] at hready
    simp only [ReadOperation.rest, ReadOperation.rest.later, pendingBytes, hstate,
      List.append_nil] at harray
    unfold endRead Observation.letGo
    simp only [pendingBytes, hstate, take_single (b := ascii "]") rfl hpos, hready, harray]
    have hend : FrameStep P t o op array 1 ⟨{ o with refCount := o.refCount }, none,
        [] ++ [.readDone { op with
          nextEntryPtr := none, state := .closing, output := array } .ok]⟩ :=
      .ended rfl rfl noEnds_nil
    exact hend

/-- All that a read writes until it has to wait. -/
theorem continueReadOp_framed (hP : PeeksList P) (script : List WriteResult)
    (hscript : .failed ∉ script) (hc : RefsCounted o (op.nextEntryPtr.toList ++ positions))
    (h : Framed P t o op array) :
    Sat (fun _ => True) (continueReadOp P t script o op)
      (FrameStep P t o op array (acceptedWrites script)) := by
  induction script generalizing o op with
  | nil => exact .same rfl h (Nat.le_refl _)
  | cons result script ih =>
    have hrest : .failed ∉ script := fun hmem => hscript (List.mem_cons_of_mem _ hmem)
    cases result with
    | again => exact .same rfl h (Nat.le_refl _)
    | failed => exact absurd (List.mem_cons_self ..) hscript
    | wrote n =>
      have hready : op.Ready := by
        obtain ⟨left, texts, _, _, _, hready, _⟩ := h
        exact hready
      have hlen := pendingBytes_pos hready
      have hnum : acceptedWrites (.wrote n :: script) = 1 + acceptedWrites script := by
        simp [acceptedWrites, WriteResult.accepts, Nat.add_comm]
      rw [hnum]
      unfold continueReadOp
      refine (nextState_framed hc h (n := min (n + 1) (pendingBytes op).length) (by omega)
        (by omega)).and_result.bind ?_
      rintro c ⟨hstep, hrun⟩
      have hcounted := (counted_nextState hP hc).result hrun
      cases hstep with
      | going hid framed more hevs =>
        exact (ih hrest hcounted (framed.congr rfl)).bind fun rest hrest =>
          .trans hid more hevs hrest
      | ended hid hout hevs => exact .ended hid hout hevs

/-! ### Runs -/

theorem endsOf_append (id : Nat) (evs evs' : List ObsEvent) :
    endsOf id (evs ++ evs') = endsOf id evs ++ endsOf id evs' := by
  simp [endsOf]

theorem endsOf_noEnds (h : NoEnds evs) : endsOf id evs = [] := by
  have hnil : evs.filterMap (·.ends) = [] := List.filterMap_eq_nil_iff.mpr h
  simp [endsOf, hnil]

theorem endsOf_readDone (hid : op.id = id) (h : NoEnds evs) (result : LeResult) :
    endsOf id (evs ++ [.readDone op result]) = [(op, result)] := by
  rw [endsOf_append, endsOf_noEnds h]
  simp [endsOf, ObsEvent.ends, hid]

/-- A read is going on, with no more than a part of the array written in these many writes; or it
has ended once, with the array written. -/
inductive Progress (P : Platform) (t : DataType) (id : Nat) (array : CString) (n : Nat)
    (log : List ObsEvent) (o : Observation) : Prop
  | going (op : ReadOperation) (hop : op ∈ o.readOpList) (hid : op.id = id)
      (framed : Framed P t o op array) (hn : n ≤ op.output.length) (hends : endsOf id log = [])
  | ended (op : ReadOperation) (hgone : ∀ r ∈ o.readOpList, r.id ≠ id)
      (hends : endsOf id log = [(op, .ok)]) (hout : op.output = array)

/-- The read goes back into the list, or has left it. -/
theorem progress_store {before after : List ReadOperation} {n m : Nat}
    (hb : ∀ r ∈ before, r.id ≠ id) (ha : ∀ r ∈ after, r.id ≠ id) (hid : op.id = id)
    (hlog : endsOf id log = []) (hn : n ≤ op.output.length)
    (h : FrameStep P t o op array m c) :
    Progress P t id array (n + m) (log ++ c.events)
      { c.obs with readOpList := before ++ c.op.toList ++ after } := by
  cases h with
  | @going refCount op' evs hid' framed more hevs =>
    refine .going op' (by simp) (hid'.trans hid) (framed.congr rfl) (by omega) ?_
    rw [endsOf_append, hlog, endsOf_noEnds hevs]
    rfl
  | @ended refCount op' evs hid' hout hevs =>
    refine .ended op' ?_ ?_ hout
    · intro r hr
      rcases List.mem_append.mp (by simpa using hr : r ∈ before ++ after) with hr | hr
      · exact hb r hr
      · exact ha r hr
    · rw [endsOf_append, hlog, endsOf_readDone (hid'.trans hid) hevs]
      rfl

theorem split_of_mem (hids : (o.readOpList.map (·.id)).Nodup) (hop : op ∈ o.readOpList) :
    ∃ before after, o.readOpList = before ++ op :: after ∧ (∀ r ∈ before, r.id ≠ op.id) ∧
      ∀ r ∈ after, r.id ≠ op.id := by
  obtain ⟨before, after, hl⟩ := List.append_of_mem hop
  rw [hl, List.map_append, List.map_cons, List.nodup_append] at hids
  obtain ⟨_, hafter, hbefore⟩ := hids
  refine ⟨before, after, hl, fun r hr => ?_, fun r hr heq => ?_⟩
  · exact hbefore _ (List.mem_map_of_mem hr) _ (List.mem_cons_self ..)
  · exact (List.nodup_cons.mp hafter).1 (List.mem_map.mpr ⟨r, hr, heq⟩)

/-- An event on the read's own descriptor. -/
theorem progress_own (hP : PeeksList P) (href : ReferencesOk o) {n : Nat}
    (h : Progress P t id array n log o) {results : List WriteResult}
    (hresults : .failed ∉ results) :
    Sat (fun _ => True) (readOpFdEventHandler P t o id false results) fun r =>
      Progress P t id array (n + acceptedWrites results) (log ++ r.2) r.1 := by
  cases h with
  | going op hop hid framed hn hends =>
    obtain ⟨before, after, hl, hb, ha⟩ := split_of_mem href.ids hop
    rw [hid] at hb ha
    have hfind : o.readOpList.find? (·.id = id) = some op := by
      refine List.find?_eq_some_iff_append.mpr ⟨by simpa using hid, before, after, hl, ?_⟩
      exact fun r hr => by simpa using hb r hr
    have hcounted : RefsCounted o (op.nextEntryPtr.toList ++ positionsOf (before ++ after)) := by
      refine href.counted.perm ?_
      rw [hl]
      simpa using (positionsOf_perm before after (some op)).symm
    unfold readOpFdEventHandler
    simp only [hfind, Bool.false_eq_true, if_false]
    refine (continueReadOp_framed hP results hresults hcounted framed).bind fun c hc => ?_
    have hlist : c.obs.readOpList = before ++ op :: after := by
      cases hc <;> exact hl
    have hstored := progress_store hb ha hid hends hn hc
    rw [← store_eq hlist hid hb ha] at hstored
    exact hstored
  | ended op hgone hends hout =>
    have hfind : o.readOpList.find? (·.id = id) = none :=
      List.find?_eq_none.mpr fun r hr => by simpa using hgone r hr
    unfold readOpFdEventHandler
    simp only [hfind]
    refine .ended op hgone ?_ hout
    rw [List.append_nil]
    exact hends

theorem progress_run (hP : PeeksList P) (href : ReferencesOk o) {n m : Nat}
    (h : Progress P t id array n log o) (hrun : Unbroken P t id o m evs o') :
    ReferencesOk o' ∧ Progress P t id array (n + m) (log ++ evs) o' := by
  induction hrun with
  | refl =>
    rw [List.append_nil]
    exact ⟨href, h⟩
  | own hr calls hcalls hown ih =>
    obtain ⟨href₁, h₁⟩ := ih
    rw [← Nat.add_assoc, ← List.append_assoc]
    exact ⟨(referencesOk_fdEvent hP href₁ id false _).result hown,
      (progress_own hP href₁ h₁ (failed_notMem_writeToFd hcalls)).result hown⟩
  | other hr hs hbuffer hread hends' ih =>
    obtain ⟨href₁, h₁⟩ := ih
    refine ⟨referencesOk_step hP href₁ hs, ?_⟩
    rw [← List.append_assoc]
    cases h₁ with
    | going op hop hid framed hn hends =>
      refine .going op ((hread op hid).mpr hop) hid (framed.congr hbuffer) hn ?_
      rw [endsOf_append, hends, hends']
      rfl
    | ended op hgone hends hout =>
      refine .ended op (fun r hr hid => hgone r ((hread r hid).mp hr) hid) ?_ hout
      rw [endsOf_append, hends, hends']
      rfl

/-! ### The start of a read -/

theorem intercalate_cons_eq (sep text : CString) (texts : List CString) :
    sep.intercalate (text :: texts) = text ++ texts.flatMap (sep ++ ·) := by
  induction texts generalizing text with
  | nil => simp [List.intercalate]
  | cons next texts ih =>
    rw [List.flatMap_cons, List.append_assoc, ← ih]
    simp [List.intercalate, List.intersperse]

theorem head?_ahead {position : Option BufferEntry}
    (hmem : ∀ e, position = some e → e ∈ o.sampleList)
    (h : RefsCounted o positions) : (ahead o position).head? = position := by
  cases position with
  | none => rfl
  | some e =>
    obtain ⟨before, after, hl⟩ := List.append_of_mem (hmem e rfl)
    have hinc := h.increasing
    rw [hl, List.pairwise_append] at hinc
    show (o.sampleList.dropWhile fun l => decide (l.id ≠ e.id)).head? = some e
    rw [hl, List.dropWhile_append_of_pos]
    · simp
    · intro l hmem'
      simpa using Nat.ne_of_lt (hinc.2.2 l hmem' e (List.mem_cons_self ..))

theorem ahead_suffix (o : Observation) (position : Option BufferEntry) :
    ahead o position <:+ o.sampleList := by
  cases position with
  | none => exact List.nil_suffix
  | some e => exact List.dropWhile_suffix _

theorem progress_start (ctx : ObsContext) (hP : PeeksList P) (href : ReferencesOk o)
    (hfresh : ∀ op ∈ o.readOpList, op.id ≠ id) (startAfter : Double) {results : List WriteResult}
    (hresults : .failed ∉ results) {texts : List CString}
    (htexts : renderAll P ctx.currentType (ahead o (findAfter P ctx.env o startAfter)) =
      .ok texts) :
    Sat (fun _ => True) (obsReadBufferJson P ctx o id startAfter results) fun r =>
      Progress P ctx.currentType id (jsonArray texts) (acceptedWrites results) r.2 r.1 := by
  have hmem : ∀ e, findAfter P ctx.env o startAfter = some e → e ∈ o.sampleList :=
    fun e he => findAfter_mem he
  have hhead := head?_ahead hmem href.counted
  have hsuffix := ahead_suffix o (findAfter P ctx.env o startAfter)
  unfold obsReadBufferJson
  dsimp only
  have hheld := counted_hold href.counted hmem
  obtain ⟨rc, hobs⟩ := hold_frame o (findAfter P ctx.env o startAfter)
  rw [hobs] at hheld ⊢
  generalize ahead o (findAfter P ctx.env o startAfter) = left at hhead hsuffix htexts
  generalize findAfter P ctx.env o startAfter = start at hhead hheld ⊢
  unfold loadReadOpBuffer
  have hnext := loadLoop_next (P := P) (t := ctx.currentType) (o.sampleList.length + 2)
    (o := { o with refCount := rc }) ⟨id, start, .start, [], 0, [], []⟩ hheld hsuffix
    hhead.symm htexts (length_le_of_suffix hsuffix)
  refine hnext.and_result.bind ?_
  rintro l ⟨⟨left', others, hleft', hpos', hothers, hcases⟩, hload⟩
  have hcounted := (counted_loadLoop hP _ _ hheld).result hload
  obtain ⟨⟨rc₁, hobs₁⟩, ⟨next, wb, em, hop⟩, hends, _, hnot⟩ := (loadLoop_text _ _ _).result hload
  obtain ⟨_, _, loads, found⟩ := l
  dsimp only at hobs₁ hop hends hnot hcases hcounted hpos' ⊢
  subst hobs₁ hop
  dsimp only at hpos' hcases hnot hcounted ⊢
  have hcounted₁ : RefsCounted { o with
        readOpList := o.readOpList ++ [⟨id, next, .start, wb, 0, em, []⟩], refCount := rc₁ }
      (next.toList ++ positionsOf o.readOpList) := hcounted.congr rfl rfl rfl
  have hframed : Framed P ctx.currentType { o with
        readOpList := o.readOpList ++ [⟨id, next, .start, wb, 0, em, []⟩], refCount := rc₁ }
      ⟨id, next, .start, wb, 0, em, []⟩ (jsonArray texts) := by
    refine framed_of_state left' others hleft' hpos' hothers ?_ ?_
    · refine ⟨rfl, fun hwb => ?_⟩
      rcases hcases with ⟨_, _, hne⟩ | ⟨_, _, _, hnone⟩
      · exact absurd hwb hne
      · exact hnone
    · rcases hcases with ⟨_, rfl, _⟩ | ⟨hfound, rfl, rfl, _⟩
      · simp [ReadOperation.rest, ReadOperation.rest.later, ReadOperation.rest.others,
          pendingBytes, jsonArray, intercalate_cons_eq]
      · obtain ⟨_, rfl, _⟩ := hnot hfound
        simp [ReadOperation.rest, ReadOperation.rest.later, ReadOperation.rest.others,
          pendingBytes, jsonArray, List.intercalate]
  refine (continueReadOp_framed hP results hresults hcounted₁ hframed).bind fun c hc => ?_
  have hlist : c.obs.readOpList =
      o.readOpList ++ (⟨id, next, .start, wb, 0, em, []⟩ : ReadOperation) :: [] := by
    cases hc <;> rfl
  have hnil : ∀ r ∈ ([] : List ReadOperation), r.id ≠ id := by simp
  have hstored := progress_store hfresh hnil rfl (endsOf_noEnds hends) (Nat.zero_le _) hc
  rw [← store_eq hlist rfl hfresh hnil, Nat.zero_add] at hstored
  exact hstored

/-- While nothing changes the buffer, what is accepted from a read is a part of the array with no
byte missing or repeated, at least a byte for each write; every event on the descriptor is handled;
and when the read ends, which it does before there are more writes than bytes, all has been
accepted. -/
def StreamsArray (P : Platform) (t : DataType) (id : Nat) (array : CString) (log : List ObsEvent)
    (o : Observation) : Prop :=
  ∀ n evs o', Unbroken P t id o n evs o' →
    (∃ op ∈ o'.readOpList, op.id = id ∧ endsOf id (log ++ evs) = [] ∧ op.output <+: array ∧
      n ≤ op.output.length ∧ op.output.length < array.length ∧
      ∀ calls, .failed ∉ calls → ∃ r,
        readOpFdEventHandler P t o' id false (writeToFd calls) = .ok r) ∨
    ((∀ op ∈ o'.readOpList, op.id ≠ id) ∧
      ∃ op, endsOf id (log ++ evs) = [(op, .ok)] ∧ op.output = array)

/-- The samples of a type can be rendered at that type. -/
theorem renderAll_typed {l : List BufferEntry} (h : ∀ e ∈ l, e.sampleRef.type = t) :
    ∃ texts, renderAll P t l = .ok texts := by
  have hsat : Sat (fun _ => True) (renderAll P t l) fun _ => True := by
    induction l with
    | nil => trivial
    | cons e l ih =>
      unfold renderAll
      refine (sat_renderEntry (h e (List.mem_cons_self ..))).bind fun text _ => ?_
      exact (ih fun e' he' => h e' (List.mem_cons_of_mem _ he')).bind fun _ _ => trivial
  obtain ⟨texts, htexts, _⟩ := hsat.exists_ok
  exact ⟨texts, htexts⟩

/-- A read that starts writes the array of the samples from there on. -/
theorem streamsArray_of_start (hP : PeeksList P) (href : ReferencesOk o)
    (hfresh : ∀ op ∈ o.readOpList, op.id ≠ id) (ctx : ObsContext) (startAfter : Double)
    {calls : List SysWrite} (hcalls : .failed ∉ calls) {texts : List CString}
    (htexts : renderAll P ctx.currentType (ahead o (findAfter P ctx.env o startAfter)) =
      .ok texts) :
    ∃ o' evs, obsReadBufferJson P ctx o id startAfter (writeToFd calls) = .ok (o', evs) ∧
      StreamsArray P ctx.currentType id (jsonArray texts) evs o' := by
  obtain ⟨⟨o₁, evs₁⟩, hread, hprogress⟩ :=
    (progress_start ctx hP href hfresh startAfter (failed_notMem_writeToFd hcalls)
      htexts).exists_ok
  have href₁ := (referencesOk_readBufferJson hP href hfresh startAfter _).result hread
  refine ⟨o₁, evs₁, hread, fun n evs o' hrun => ?_⟩
  obtain ⟨href', hp⟩ := progress_run hP href₁ hprogress hrun
  cases hp with
  | going op hop hid framed hn hends =>
    obtain ⟨hstart, hlt⟩ := framed.unfinished
    refine .inl ⟨op, hop, hid, hends, hstart, by omega, hlt, fun calls hcalls' => ?_⟩
    obtain ⟨r, hr', _⟩ := (progress_own hP href' (.going op hop hid framed hn hends)
      (failed_notMem_writeToFd hcalls')).exists_ok
    exact ⟨r, hr'⟩
  | ended op hgone hends hout => exact .inr ⟨hgone, op, hends, hout⟩

theorem fresh_nextRead {h : Hub} {r : ResRef} {x : Resource} (hr : Reachable P h)
    (hx : h.resources r = some x) (ho : x.cls = .observation o) :
    ∀ op ∈ o.readOpList, op.id ≠ h.nextRead := by
  intro op hop
  have hreads := (reachable_wellFormed hr).reads r x hx
  unfold Resource.readOps at hreads
  rw [ho] at hreads
  exact Nat.ne_of_lt (hreads op hop)

/-- The framing of a read does not depend on how the descriptor takes the bytes. -/
theorem read_framed {h : Hub} {r : ResRef} {x : Resource} (hP : PeeksList P) (hr : Reachable P h)
    (hx : h.resources r = some x) (ho : x.cls = .observation o) (ctx : ObsContext)
    (startAfter : Double) (calls : List SysWrite) (hcalls : .failed ∉ calls) {texts : List CString}
    (htexts : renderAll P ctx.currentType (ahead o (findAfter P ctx.env o startAfter)) =
      .ok texts) :
    ∃ o' evs, obsReadBufferJson P ctx o h.nextRead startAfter (writeToFd calls) = .ok (o', evs) ∧
      StreamsArray P ctx.currentType h.nextRead (jsonArray texts) evs o' := by
  obtain ⟨log, hlog, _⟩ := observation_reachable (fun _ => True) hr (fun _ _ _ => trivial) hx ho
  exact streamsArray_of_start hP (hlog.referencesOk hP) (fresh_nextRead hr hx ho) ctx startAfter
    hcalls htexts

/-- The read of two samples is interrupted once, has one byte accepted, and has to wait. -/
theorem read_framed_lateSampleRun : ∃ h x o texts o' evs, Reachable smallPlatform h ∧
    h.resources 0 = some x ∧ x.cls = .observation o ∧ texts.length = 2 ∧
    obsReadBufferJson smallPlatform ⟨smallEnvironment, none, .numeric⟩ o h.nextRead .nan
      (writeToFd [.interrupted, .wrote 0, .again]) = .ok (o', evs) ∧
    StreamsArray smallPlatform .numeric h.nextRead (jsonArray texts) evs o' := by
  have hrun : smallRunEnds lateSampleRun (fun h => (h.observation 0).any fun o =>
      passes (renderAll smallPlatform .numeric
        (ahead o (findAfter smallPlatform smallEnvironment o .nan))) (·.length = 2)) = true := by
    decide +kernel
  obtain ⟨h, hr, hp⟩ := exists_of_smallRunEnds hrun
  obtain ⟨o, ho, hp⟩ := (Option.any_eq_true _ _).mp hp
  obtain ⟨x, hx, hcls⟩ := observation_eq_some ho
  obtain ⟨texts, htexts, hlen⟩ := passes_iff.mp hp
  have hP : PeeksList smallPlatform := fun _ _ _ hn => by cases hn
  obtain ⟨o', evs, hread, hstream⟩ := read_framed hP hr hx hcls
    ⟨smallEnvironment, none, .numeric⟩ .nan [.interrupted, .wrote 0, .again] (by simp) htexts
  exact ⟨h, x, o, texts, o', evs, hr, hx, hcls, of_decide_eq_true hlen, hread, hstream⟩

end MangOH.DataHub
