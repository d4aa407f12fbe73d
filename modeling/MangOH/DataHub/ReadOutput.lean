import MangOH.DataHub.ReadProgress

/-! When a read ends, it has written the whole array or less, wherever it has stood in the
buffer. -/
namespace MangOH.DataHub

open Outcome

variable {P : Platform} {ctx : ObsContext} {o : Observation} {t : DataType}
  {op op' : ReadOperation} {evs : List ObsEvent} {result : LeResult} {c : Continued} {l : Loaded}

/-- The read that ends with this event, and its result. -/
def ObsEvent.ends : ObsEvent → Option (ReadOperation × LeResult)
  | .readDone op result => some (op, result)
  | _ => none

def NoEnds (evs : List ObsEvent) : Prop := ∀ ev ∈ evs, ev.ends = none

/-- The closing bracket has been written, after all that belongs before it. -/
def ReadOperation.Complete (op : ReadOperation) : Prop := op.output = jsonArray op.texts

/-- What is written in one go is not empty, so at least one byte is. -/
theorem pendingBytes_length (h : op.OutputOk) : 0 < (pendingBytes op).length := by
  unfold ReadOperation.OutputOk at h
  unfold pendingBytes
  cases hs : op.state with
  | start | comma | closing => simp [ascii]
  | sample =>
    rw [hs] at h
    obtain ⟨before, _, hlt, _⟩ := h
    simp only [List.length_drop]
    omega

theorem take_single {b : CString} {n : Nat} (hb : b.length = 1) (hn : 0 < n) : b.take n = b :=
  List.take_of_length_le (by omega)

theorem intercalate_append_sep (sep : CString) {before : List CString} (hne : before ≠ []) :
    sep.intercalate before ++ sep = before.flatMap (· ++ sep) := by
  rw [← List.dropLast_concat_getLast hne, intercalate_append_singleton, List.flatMap_append]
  simp

theorem noEnds_nil : NoEnds [] := fun _ hev => absurd hev List.not_mem_nil

theorem NoEnds.append {evs' : List ObsEvent} (h : NoEnds evs) (h' : NoEnds evs') :
    NoEnds (evs ++ evs') := by
  intro ev hev
  rcases List.mem_append.mp hev with hev | hev
  · exact h ev hev
  · exact h' ev hev

theorem jsonArray_append (before : List CString) (text : CString) :
    jsonArray (before ++ [text]) =
      ascii "[" ++ before.flatMap (· ++ ascii ",") ++ text ++ ascii "]" := by
  rw [jsonArray, intercalate_append_singleton]
  simp

/-- A read that is going on has not written all. -/
theorem ReadOperation.OutputOk.incomplete (h : op.OutputOk) : ¬ op.Complete := by
  intro hall
  unfold ReadOperation.OutputOk at h
  unfold ReadOperation.Complete at hall
  have hlen := congrArg List.length hall
  split at h
  · rw [h.1] at hlen
    simp [jsonArray, ascii] at hlen
  · obtain ⟨before, htexts, hlt, hout⟩ := h
    rw [htexts, jsonArray_append, hout] at hlen
    simp only [List.length_append, List.length_take] at hlen
    omega
  · obtain ⟨before, hne, htexts, -, -, hout⟩ := h
    rw [htexts, jsonArray_append, hout, ← intercalate_append_sep _ hne] at hlen
    simp only [List.length_append, ascii] at hlen
    simp at hlen
    omega
  · rw [h.2, jsonArray] at hlen
    simp [ascii] at hlen

/-! ### Loads -/

/-- What a load of the write buffer comes to, wherever the read stands. -/
structure LoadText (o : Observation) (op : ReadOperation) (l : Loaded) : Prop where
  sameObs : ∃ refCount, l.obs = { o with refCount }
  sameRead : ∃ nextEntryPtr writeBuffer emitted,
    l.op = { op with nextEntryPtr, writeBuffer, emitted }
  noEnds : NoEnds l.events
  found : l.found = true → l.op.texts = op.texts ++ [l.op.writeBuffer] ∧ l.op.writeBuffer ≠ []
  notFound : l.found = false → l.op.texts = op.texts ∧ l.op.writeBuffer = op.writeBuffer ∧
    l.op.nextEntryPtr = none

theorem loadLoop_text (fuel : Nat) (o : Observation) (op : ReadOperation) :
    Returns (loadLoop P t fuel o op) (LoadText o op) := by
  induction fuel generalizing o op with
  | zero => exact id
  | succ fuel ih =>
    unfold loadLoop
    split
    · next hnone =>
      exact ⟨⟨o.refCount, rfl⟩, ⟨op.nextEntryPtr, op.writeBuffer, op.emitted, rfl⟩, noEnds_nil,
        by simp, fun _ => ⟨rfl, rfl, hnone⟩⟩
    · next parked hparked =>
      obtain ⟨rc, hobs⟩ := catchUp_frame o parked
      generalize catchUp o parked = caught at hobs
      obtain ⟨o₁, next⟩ := caught
      dsimp only at hobs
      subst hobs
      cases next with
      | none =>
        exact ⟨⟨rc, rfl⟩, ⟨none, op.writeBuffer, op.emitted, rfl⟩, noEnds_nil, by simp,
          fun _ => ⟨rfl, rfl, rfl⟩⟩
      | some e =>
        refine Returns.of_ok fun l hl => ?_
        obtain ⟨text, htext, hl⟩ := bind_eq_ok.mp hl
        obtain ⟨rc₂, hframe⟩ := advance_frame P { o with refCount := rc } e
        generalize advance P { o with refCount := rc } e = moved at hl hframe
        obtain ⟨o₂, next⟩ := moved
        dsimp only at hl hframe
        subst hframe
        have hload : ∀ ev ∈ [ObsEvent.loading t o.bufferedType e.sampleRef], ev.ends = none := by
          simp [ObsEvent.ends]
        cases text with
        | some text =>
          cases hl
          exact ⟨⟨rc₂, rfl⟩, ⟨next, text, op.emitted ++ [(e, text)], rfl⟩, hload,
            fun _ => ⟨by simp [ReadOperation.texts], renderEntry_ne_nil htext⟩, by simp⟩
        | none =>
          obtain ⟨rest, hrest, hl⟩ := bind_eq_ok.mp hl
          cases hl
          obtain ⟨⟨rc₃, hobs⟩, ⟨next', wb, em, hop⟩, hends, hfound, hnot⟩ :=
            (ih _ { op with nextEntryPtr := next }).result hrest
          exact ⟨⟨rc₃, hobs⟩, ⟨next', wb, em, hop⟩, NoEnds.append hload hends, hfound, hnot⟩

/-! ### Events on the descriptor -/

/-- What an event on the descriptor comes to: the read goes on, or it has ended, with success
exactly if all has been written. -/
inductive ReadOutcome (o : Observation) (op : ReadOperation) : Continued → Prop
  | going {refCount : Nat → Nat} {op' : ReadOperation} {evs : List ObsEvent} (hid : op'.id = op.id)
      (hout : op'.OutputOk) (hevs : NoEnds evs) :
      ReadOutcome o op ⟨{ o with refCount }, some op', evs⟩
  | ended {refCount : Nat → Nat} {op' : ReadOperation} {evs : List ObsEvent} (hid : op'.id = op.id)
      (hevs : NoEnds evs) (result : LeResult) (hresult : result = .ok ↔ op'.Complete) :
      ReadOutcome o op ⟨{ o with refCount }, none, evs ++ [.readDone op' result]⟩

/-- The buffer and its reference counts stay as they are. -/
theorem ReadOutcome.same (hid : op'.id = op.id) (hout : op'.OutputOk) :
    ReadOutcome o op ⟨o, some op', []⟩ := by
  show ReadOutcome o op ⟨{ o with refCount := o.refCount }, some op', []⟩
  exact .going hid hout noEnds_nil

theorem ReadOutcome.gone (o : Observation) (op : ReadOperation) (refCount : Nat → Nat)
    (op' : ReadOperation) (hid : op'.id = op.id) (result : LeResult)
    (hresult : result = .ok ↔ op'.Complete) :
    ReadOutcome o op ⟨{ o with refCount }, none, [.readDone op' result]⟩ := by
  show ReadOutcome o op ⟨_, none, [] ++ [.readDone op' result]⟩
  exact .ended hid noEnds_nil result hresult

theorem ReadOutcome.trans {refCount : Nat → Nat} (hid : op'.id = op.id) (hevs : NoEnds evs)
    (h : ReadOutcome { o with refCount } op' c) :
    ReadOutcome o op { c with events := evs ++ c.events } := by
  cases h with
  | going hid' hout hevs' => exact .going (hid'.trans hid) hout (hevs.append hevs')
  | ended hid' hevs' result hresult =>
    rw [← List.append_assoc]
    exact .ended (hid'.trans hid) (hevs.append hevs') result hresult

/-- The part of a text that has been written grows until the next load. -/
theorem nextState_text {before : List CString} {n : Nat} (hstate : op.state = .sample)
    (htexts : op.texts = before ++ [op.writeBuffer])
    (hout : op.output = ascii "[" ++ before.flatMap (· ++ ascii ",") ++
      op.writeBuffer.take op.writeOffset)
    (hn : n ≤ op.writeBuffer.length - op.writeOffset)
    (hoff : op.writeOffset < op.writeBuffer.length) :
    Returns (nextState P t o op n) (ReadOutcome o op) := by
  have hpending : pendingBytes op = op.writeBuffer.drop op.writeOffset := by
    simp [pendingBytes, hstate]
  have hwritten : op.output ++ (op.writeBuffer.drop op.writeOffset).take n =
      ascii "[" ++ before.flatMap (· ++ ascii ",") ++ op.writeBuffer.take (op.writeOffset + n) := by
    rw [hout, List.append_assoc, ← List.take_add]
  unfold nextState
  simp only [hstate, hpending, hwritten]
  split
  · next hfull =>
    have hall : ascii "[" ++ before.flatMap (· ++ ascii ",") ++
        op.writeBuffer.take (op.writeOffset + n) =
        ascii "[" ++ (ascii ",").intercalate op.texts := by
      rw [htexts, intercalate_append_singleton, hfull, List.take_length, List.append_assoc]
    rw [hall]
    refine (loadLoop_text _ _ _).bind ?_
    rintro ⟨_, _, evs, found⟩ ⟨⟨rc, rfl⟩, ⟨next, wb, em, rfl⟩, hevs, hfound, hnot⟩
    dsimp only at hevs hfound hnot
    refine .going rfl ?_ hevs
    unfold ReadOperation.OutputOk
    cases found with
    | true =>
      obtain ⟨htexts', hwb⟩ := hfound rfl
      exact ⟨op.texts, by simp [htexts], htexts', hwb, rfl, rfl⟩
    | false =>
      obtain ⟨htexts', _, hnone⟩ := hnot rfl
      exact ⟨hnone,
        congrArg (fun texts => ascii "[" ++ (ascii ",").intercalate texts) htexts'.symm⟩
  · next hpart =>
    refine .same rfl ?_
    unfold ReadOperation.OutputOk
    exact ⟨before, htexts, by dsimp only; omega, rfl⟩

/-- One write, and the change of state that follows it. -/
theorem nextState_outcome (hout : op.OutputOk) {n : Nat} (hpos : 0 < n)
    (hn : n ≤ (pendingBytes op).length) :
    Returns (nextState P t o op n) (ReadOutcome o op) := by
  unfold ReadOperation.OutputOk at hout
  cases hstate : op.state with
  | start =>
    rw [hstate] at hout
    obtain ⟨hempty, hoff, htexts⟩ := hout
    unfold nextState pendingBytes
    simp only [hstate, hempty, List.nil_append, take_single (b := ascii "[") rfl hpos]
    refine .same rfl ?_
    unfold ReadOperation.OutputOk
    rcases htexts with ⟨htexts, hwb, hnone⟩ | ⟨htexts, hwb⟩
    · rw [if_pos hwb]
      refine ⟨hnone, ?_⟩
      show ascii "[" = ascii "[" ++ (ascii ",").intercalate op.texts
      rw [htexts]
      simp [List.intercalate]
    · rw [if_neg hwb]
      refine ⟨[], htexts, ?_, ?_⟩
      · dsimp only
        rw [hoff]
        exact List.length_pos_iff.mpr hwb
      · simp [hoff]
  | sample =>
    rw [hstate] at hout
    obtain ⟨before, htexts, hoff, houtput⟩ := hout
    have hlen : (pendingBytes op).length = op.writeBuffer.length - op.writeOffset := by
      simp [pendingBytes, hstate]
    rw [hlen] at hn
    exact nextState_text hstate htexts houtput hn hoff
  | comma =>
    rw [hstate] at hout
    obtain ⟨before, hne, htexts, hwb, hoff, houtput⟩ := hout
    unfold nextState pendingBytes
    simp only [hstate, take_single (b := ascii ",") rfl hpos]
    refine .same rfl ?_
    unfold ReadOperation.OutputOk
    refine ⟨before, htexts, ?_, ?_⟩
    · dsimp only
      rw [hoff]
      exact List.length_pos_iff.mpr hwb
    · dsimp only
      rw [houtput, hoff, List.append_assoc, intercalate_append_sep _ hne]
      simp
  | closing =>
    rw [hstate] at hout
    obtain ⟨hnone, houtput⟩ := hout
    have hend := take_single (b := ascii "]") rfl hpos
    unfold nextState endRead pendingBytes Observation.letGo
    simp only [hstate, hnone, hend]
    have hall : op.output ++ ascii "]" = jsonArray op.texts := by
      rw [houtput]
      rfl
    have hgone : ReadOutcome o op ⟨{ o with refCount := o.refCount }, none,
        [.readDone { op with
          nextEntryPtr := none, state := .closing, output := op.output ++ ascii "]" } .ok]⟩ :=
      ReadOutcome.gone o op o.refCount
        { op with nextEntryPtr := none, state := .closing, output := op.output ++ ascii "]" }
        rfl .ok (iff_of_true rfl hall)
    exact hgone

theorem continueReadOp_outcome (script : List WriteResult) (o : Observation) (hout : op.OutputOk) :
    Returns (continueReadOp P t script o op) (ReadOutcome o op) := by
  have hwait : ReadOutcome o op ⟨o, some op, []⟩ := .same rfl hout
  induction script generalizing o op with
  | nil => exact hwait
  | cons result script ih =>
    cases result with
    | again => exact hwait
    | failed =>
      obtain ⟨rc, hobs⟩ := letGo_frame o op.nextEntryPtr
      show ReadOutcome o op ⟨o.letGo op.nextEntryPtr, none,
        [.readDone { op with nextEntryPtr := none } .commError]⟩
      rw [hobs]
      exact ReadOutcome.gone o op rc { op with nextEntryPtr := none } rfl .commError
        ⟨by simp, fun hall => absurd hall hout.incomplete⟩
    | wrote n =>
      unfold continueReadOp
      have hlen := pendingBytes_length hout
      refine (nextState_outcome hout (n := min (n + 1) (pendingBytes op).length) (by omega)
        (by omega)).bind fun c hc => ?_
      cases hc with
      | going hid hout' hevs =>
        exact (ih _ hout' (.same rfl hout')).bind fun rest hrest => hrest.trans hid hevs
      | ended hid hevs result hresult => exact .ended hid hevs result hresult

end MangOH.DataHub
