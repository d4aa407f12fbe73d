import MangOH.DataHub.ReadPositions

/-! What one read does when it can write: which entries it loads, and what it writes of them. -/
namespace MangOH.DataHub

open Outcome

variable {P : Platform} {ctx : ObsContext} {o o' : Observation} {t : DataType}
  {op op' : ReadOperation} {e : BufferEntry} {positions : List BufferEntry} {evs : List ObsEvent}

/-- The entry has been loaded by the read, or the read has not come to it yet. -/
def ReadOperation.Covers (op : ReadOperation) (e : BufferEntry) : Prop :=
  (∃ p, op.nextEntryPtr = some p ∧ p.id ≤ e.id) ∨ e ∈ op.emitted.map (·.1)

/-- A read loads entries in the order of the buffer, none of them twice. -/
structure ReadOperation.Ordered (op : ReadOperation) : Prop where
  increasing : (op.emitted.map (·.1)).Pairwise fun a b => a.id < b.id
  ahead : ∀ e ∈ op.emitted.map (·.1), ∀ p, op.nextEntryPtr = some p → e.id < p.id

def ReadOperation.texts (op : ReadOperation) : List CString := op.emitted.map (·.2)

/-- The JSON array that a read writes. -/
def jsonArray (texts : List CString) : CString :=
  ascii "[" ++ (ascii ",").intercalate texts ++ ascii "]"

/-- What a read has written when it gets as far as this state: the texts of the samples loaded,
but for the part of the last one that is still in the write buffer. -/
def ReadOperation.OutputOk (op : ReadOperation) : Prop :=
  match op.state with
  | .start => op.output = [] ∧ op.writeOffset = 0 ∧
      ((op.texts = [] ∧ op.writeBuffer = [] ∧ op.nextEntryPtr = none) ∨
        (op.texts = [op.writeBuffer] ∧ op.writeBuffer ≠ []))
  | .sample => ∃ before, op.texts = before ++ [op.writeBuffer] ∧
      op.writeOffset < op.writeBuffer.length ∧
      op.output = ascii "[" ++ before.flatMap (· ++ ascii ",") ++
        op.writeBuffer.take op.writeOffset
  | .comma => ∃ before, before ≠ [] ∧ op.texts = before ++ [op.writeBuffer] ∧
      op.writeBuffer ≠ [] ∧ op.writeOffset = 0 ∧
      op.output = ascii "[" ++ (ascii ",").intercalate before
  | .closing => op.nextEntryPtr = none ∧
      op.output = ascii "[" ++ (ascii ",").intercalate op.texts

/-- The entry that is loaded can be printed in the write buffer. -/
def renders (P : Platform) : ObsEvent → Bool
  | .loading dataType _ sample =>
    match renderEntry P dataType sample with
    | .ok none => false
    | _ => true
  | _ => true

/-- The events are loads out of a buffer, at one type. -/
def Loads (t : DataType) (o : Observation) (evs : List ObsEvent) : Prop :=
  ∀ ev ∈ evs, ∃ s ∈ o.samples, ev = .loading t o.bufferedType s

theorem intercalate_append_singleton (sep text : CString) (before : List CString) :
    sep.intercalate (before ++ [text]) = before.flatMap (· ++ sep) ++ text := by
  induction before with
  | nil => simp [List.intercalate]
  | cons a before ih =>
    have hne : before ++ [text] ≠ [] := by simp
    obtain ⟨b, rest, hcons⟩ := List.exists_cons_of_ne_nil hne
    rw [List.cons_append, List.flatMap_cons, List.append_assoc, ← ih, hcons]
    simp [List.intercalate, List.intersperse]

theorem renderEntry_ne_nil {s : DataSample} {text : CString}
    (h : renderEntry P t s = .ok (some text)) : text ≠ [] := by
  unfold renderEntry at h
  dsimp only at h
  split at h
  · cases h
  · obtain ⟨json, _, h⟩ := bind_eq_ok.mp h
    cases json with
    | none => cases h
    | some json =>
      cases h
      simp [ascii]

/-! ### Loading the write buffer -/

/-- What a load of the write buffer comes to, for a read that has been moved out of the list. -/
structure LoadOutcome (P : Platform) (t : DataType) (o : Observation) (op : ReadOperation)
    (positions : List BufferEntry) (l : Loaded) : Prop where
  sameObs : ∃ refCount, l.obs = { o with refCount }
  sameRead : ∃ nextEntryPtr writeBuffer emitted,
    l.op = { op with nextEntryPtr, writeBuffer, emitted }
  held : Held l.obs (l.op.nextEntryPtr.toList ++ positions)
  ordered : l.op.Ordered
  loads : Loads t o l.events
  found : l.found = true → l.op.texts = op.texts ++ [l.op.writeBuffer] ∧ l.op.writeBuffer ≠ []
  notFound : l.found = false → l.op.texts = op.texts ∧ l.op.writeBuffer = op.writeBuffer ∧
    l.op.nextEntryPtr = none
  covers : (∀ ev ∈ l.events, renders P ev = true) → ∀ e ∈ o.sampleList, op.Covers e →
    l.op.Covers e

/-- The entry that a load comes to is newer than all that have been loaded. -/
theorem ReadOperation.Ordered.next {parked : BufferEntry} {next : Option BufferEntry}
    (hord : op.Ordered) (hparked : op.nextEntryPtr = some parked) (hle : parked.id ≤ e.id)
    (hnext : ∀ n, next = some n → e.id < n.id) :
    ReadOperation.Ordered { op with nextEntryPtr := next } := by
  refine ⟨hord.increasing, fun e' he' n hn => ?_⟩
  have h₁ := hord.ahead e' he' parked hparked
  have h₂ := hnext n hn
  omega

theorem ReadOperation.Ordered.emit {parked : BufferEntry} {next : Option BufferEntry}
    (hord : op.Ordered) (hparked : op.nextEntryPtr = some parked) (hle : parked.id ≤ e.id)
    (hnext : ∀ n, next = some n → e.id < n.id) (text writeBuffer : CString) :
    ReadOperation.Ordered { op with
      nextEntryPtr := next, writeBuffer, emitted := op.emitted ++ [(e, text)] } := by
  have hlt : ∀ e' ∈ op.emitted.map (·.1), e'.id < e.id := fun e' he' =>
    Nat.lt_of_lt_of_le (hord.ahead e' he' parked hparked) hle
  refine ⟨?_, fun e' he' n hn => ?_⟩
  · rw [List.map_append, List.pairwise_append]
    refine ⟨hord.increasing, List.pairwise_singleton _ _, fun a ha b hb => ?_⟩
    rw [List.mem_singleton.mp hb]
    exact hlt a ha
  · have hn' := hnext n hn
    simp only [List.map_append, List.mem_append] at he'
    rcases he' with he' | he'
    · have := hlt e' he'
      omega
    · rw [List.mem_singleton.mp he']
      exact hn'

theorem loadLoop_outcome (positions : List BufferEntry) (fuel : Nat)
    (h : Held o (op.nextEntryPtr.toList ++ positions)) (hord : op.Ordered) :
    Returns (loadLoop P t fuel o op) (LoadOutcome P t o op positions) := by
  induction fuel generalizing o op with
  | zero => exact id
  | succ fuel ih =>
    unfold loadLoop
    split
    · next hnone =>
      refine ⟨⟨o.refCount, rfl⟩, ⟨op.nextEntryPtr, op.writeBuffer, op.emitted, rfl⟩, h, hord, ?_,
        by simp, fun _ => ⟨rfl, rfl, hnone⟩, fun _ e _ he => he⟩
      intro ev hev
      cases hev
    · next parked hparked =>
      rw [hparked] at h
      have hcases := catchUp_cases h
      obtain ⟨rc, hobs⟩ := catchUp_frame o parked
      generalize catchUp o parked = caught at hcases hobs
      obtain ⟨o₁, next⟩ := caught
      dsimp only at hcases hobs
      subst hobs
      rcases hcases with ⟨rfl, hempty, hheld⟩ | ⟨e, rfl, hmem, hle, hmin, hheld⟩
      · -- the whole buffer is gone
        refine ⟨⟨rc, rfl⟩, ⟨none, op.writeBuffer, op.emitted, rfl⟩, hheld,
          ⟨hord.increasing, by simp⟩, ?_, by simp, fun _ => ⟨rfl, rfl, rfl⟩, ?_⟩
        · intro ev hev
          cases hev
        · intro _ e he
          rw [hempty] at he
          cases he
      · refine Returns.of_ok fun l hl => ?_
        obtain ⟨text, htext, hl⟩ := bind_eq_ok.mp hl
        have hadv := held_advance (P := P) hheld hmem
        obtain ⟨hnext, hlast⟩ := getNextBufferEntry_spec (P := P) hheld hmem
        obtain ⟨rc₂, hframe⟩ := advance_frame P { o with refCount := rc } e
        have hmoved : (advance P { o with refCount := rc } e).2 =
            getNextBufferEntry P { o with refCount := rc } e := by rw [advance_eq]
        generalize advance P { o with refCount := rc } e = moved at hl hadv hframe hmoved
        obtain ⟨o₂, next⟩ := moved
        dsimp only at hl hadv hframe hmoved
        subst hframe
        rw [← hmoved] at hnext hlast
        have hsample : e.sampleRef ∈ o.samples := List.mem_map_of_mem hmem
        have hgt : ∀ n, next = some n → e.id < n.id := fun n hn => (hnext n hn).2.1
        cases text with
        | some text =>
          cases hl
          refine ⟨⟨rc₂, rfl⟩, ⟨next, text, op.emitted ++ [(e, text)], rfl⟩, hadv,
            hord.emit hparked hle hgt text text, ?_, ?_, by simp, ?_⟩
          · intro ev hev
            exact ⟨_, hsample, List.mem_singleton.mp hev⟩
          · exact fun _ => ⟨by simp [ReadOperation.texts], renderEntry_ne_nil htext⟩
          · intro _ l hl hcov
            rcases hcov with ⟨p, hp, hpl⟩ | hemitted
            · cases hparked.symm.trans hp
              have hel := hmin l hl hpl
              rcases Nat.eq_or_lt_of_le hel with heq | hlt
              · have : e = l := hheld.inj hmem hl heq
                exact .inr (by simp [this])
              · cases hn : next with
                | none => exact absurd (hlast hn l hl) (by omega)
                | some n => exact .inl ⟨n, rfl, (hnext n hn).2.2 l hl hlt⟩
            · exact .inr (by simp [hemitted])
        | none =>
          obtain ⟨rest, hrest, hl⟩ := bind_eq_ok.mp hl
          cases hl
          have hout := (@ih { o with refCount := rc₂ } { op with nextEntryPtr := next } hadv
            (hord.next hparked hle hgt)).result hrest
          obtain ⟨⟨rc₃, hobs⟩, ⟨next', wb, em, hop⟩, hheld', hord', hloads, hfound, hnot, _⟩ := hout
          refine ⟨⟨rc₃, hobs⟩, ⟨next', wb, em, hop⟩, hheld', hord', ?_, hfound, hnot, ?_⟩
          · intro ev hev
            rcases List.mem_cons.mp hev with rfl | hev
            · exact ⟨_, hsample, rfl⟩
            · exact hloads ev hev
          · intro hrenders
            have := hrenders _ (List.mem_cons_self ..)
            simp [renders, htext] at this

/-! ### No load fails in a buffer of the right type -/

/-- How many entries a read has still before it. -/
def remaining (o : Observation) : Option BufferEntry → Nat
  | none => 0
  | some p => o.sampleList.countP fun e => decide (p.id ≤ e.id)

theorem remaining_le (o : Observation) (position : Option BufferEntry) :
    remaining o position ≤ o.sampleList.length := by
  cases position with
  | none => exact Nat.zero_le _
  | some p => exact List.countP_le_length

theorem remaining_mono {p : BufferEntry} (hle : p.id ≤ e.id) :
    remaining o (some e) ≤ remaining o (some p) :=
  List.countP_mono_left fun l _ hl => by
    simp only [decide_eq_true_eq] at hl ⊢
    omega

theorem remaining_lt {next : Option BufferEntry} (he : e ∈ o.sampleList)
    (hnext : ∀ n, next = some n → e.id < n.id) : remaining o next < remaining o (some e) := by
  obtain ⟨before, after, hsplit⟩ := List.append_of_mem he
  have hone : remaining o (some e) = before.countP (fun l => decide (e.id ≤ l.id)) +
      (after.countP (fun l => decide (e.id ≤ l.id)) + 1) := by
    simp [remaining, hsplit, List.countP_append]
  cases next with
  | none =>
    rw [hone]
    exact Nat.succ_pos _
  | some n =>
    have hlt := hnext n rfl
    have hle : ∀ l : List BufferEntry, l.countP (fun l => decide (n.id ≤ l.id)) ≤
        l.countP (fun l => decide (e.id ≤ l.id)) := fun l =>
      List.countP_mono_left fun l _ hl => by
        simp only [decide_eq_true_eq] at hl ⊢
        omega
    have hb := hle before
    have ha := hle after
    have hne : ¬ n.id ≤ e.id := by omega
    have htwo : remaining o (some n) = before.countP (fun l => decide (n.id ≤ l.id)) +
        after.countP (fun l => decide (n.id ≤ l.id)) := by
      simp [remaining, hsplit, List.countP_append, hne]
    omega

theorem sat_renderEntry {B : Fault → Prop} {s : DataSample} (hs : s.type = t) :
    Sat B (renderEntry P t s) fun _ => True := by
  unfold renderEntry
  dsimp only
  split
  · exact trivial
  · exact (sat_convertToJson hs _).bind fun _ _ => trivial

/-- A load finds an entry that it can print, or gets to the end of the buffer. -/
theorem sat_loadLoop {B : Fault → Prop} (fuel : Nat)
    (h : Held o (op.nextEntryPtr.toList ++ positions)) (ht : ∀ s ∈ o.samples, s.type = t)
    (hfuel : remaining o op.nextEntryPtr < fuel) :
    Sat B (loadLoop P t fuel o op) fun _ => True := by
  induction fuel generalizing o op with
  | zero => omega
  | succ fuel ih =>
    unfold loadLoop
    split
    · exact trivial
    · next parked hparked =>
      rw [hparked] at h hfuel
      have hcases := catchUp_cases h
      obtain ⟨rc, hobs⟩ := catchUp_frame o parked
      generalize catchUp o parked = caught at hcases hobs
      obtain ⟨o₁, next⟩ := caught
      dsimp only at hcases hobs
      subst hobs
      rcases hcases with ⟨rfl, _, _⟩ | ⟨e, rfl, hmem, hle, _, hheld⟩
      · exact trivial
      · refine (sat_renderEntry (ht e.sampleRef (List.mem_map_of_mem hmem))).bind fun text _ => ?_
        have hadv := held_advance (P := P) hheld hmem
        have hnext := (getNextBufferEntry_spec (P := P) hheld hmem).1
        obtain ⟨rc₂, hframe⟩ := advance_frame P { o with refCount := rc } e
        have hmoved : (advance P { o with refCount := rc } e).2 =
            getNextBufferEntry P { o with refCount := rc } e := by rw [advance_eq]
        rw [← hmoved] at hnext
        generalize advance P { o with refCount := rc } e = moved at hadv hframe hnext
        obtain ⟨o₂, next⟩ := moved
        dsimp only at hadv hframe hnext
        subst hframe
        cases text with
        | some text => exact trivial
        | none =>
          have hlt := remaining_lt (o := o) hmem fun n hn => (hnext n hn).2.1
          have hmono := remaining_mono (o := o) hle
          have hfuel' : remaining o next < fuel := by omega
          exact (@ih { o with refCount := rc₂ } { op with nextEntryPtr := next }
            hadv ht hfuel').bind
            fun _ _ => trivial

end MangOH.DataHub
