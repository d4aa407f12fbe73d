import MangOH.DataHub.ReadOutput

/-! One event on a read's descriptor, and everything else that happens to an Observation, as the
reads of the Observation see it. -/
namespace MangOH.DataHub

open Outcome

variable {P : Platform} {ctx : ObsContext} {o o' : Observation} {t : DataType}
  {op op' : ReadOperation} {e : BufferEntry} {positions : List BufferEntry}
  {evs evs' : List ObsEvent} {result : LeResult} {c : Continued}

/-- All the samples that are loaded can be printed. -/
def AllRender (P : Platform) (evs : List ObsEvent) : Prop := ∀ ev ∈ evs, renders P ev = true

/-- What an event comes to for a read that has been moved out of the list: it goes on, or it has
ended with all that it had before it, or it is given up. -/
inductive ReadStep (P : Platform) (t : DataType) (o : Observation) (op : ReadOperation)
    (positions : List BufferEntry) : Continued → Prop
  | going {refCount : Nat → Nat} {op' : ReadOperation} {evs : List ObsEvent} (hid : op'.id = op.id)
      (held : Held { o with refCount } (op'.nextEntryPtr.toList ++ positions))
      (ordered : op'.Ordered) (output : op'.OutputOk) (loads : Loads t o evs)
      (covers : AllRender P evs → ∀ e ∈ o.sampleList, op.Covers e → op'.Covers e) :
      ReadStep P t o op positions ⟨{ o with refCount }, some op', evs⟩
  | ended {refCount : Nat → Nat} {op' : ReadOperation} {evs : List ObsEvent} (hid : op'.id = op.id)
      (held : Held { o with refCount } positions) (ordered : op'.Ordered) (loads : Loads t o evs)
      (output : op'.output = jsonArray op'.texts)
      (covers : AllRender P evs → ∀ e ∈ o.sampleList, op.Covers e → e ∈ op'.emitted.map (·.1)) :
      ReadStep P t o op positions ⟨{ o with refCount }, none, evs ++ [.readDone op' .ok]⟩
  | failed {refCount : Nat → Nat} {op' : ReadOperation} {evs : List ObsEvent} (hid : op'.id = op.id)
      (held : Held { o with refCount } positions) (ordered : op'.Ordered) (loads : Loads t o evs) :
      ReadStep P t o op positions ⟨{ o with refCount }, none, evs ++ [.readDone op' .commError]⟩

theorem Loads.append (h : Loads t o evs) (h' : Loads t o evs') : Loads t o (evs ++ evs') := by
  intro ev hev
  rcases List.mem_append.mp hev with hev | hev
  · exact h ev hev
  · exact h' ev hev

theorem loads_nil : Loads t o [] := fun _ hev => absurd hev List.not_mem_nil

/-- The buffer, its reference counts and the log stay as they are. -/
theorem ReadStep.same (hid : op'.id = op.id)
    (held : Held o (op'.nextEntryPtr.toList ++ positions)) (ordered : op'.Ordered)
    (output : op'.OutputOk) (covers : ∀ e ∈ o.sampleList, op.Covers e → op'.Covers e) :
    ReadStep P t o op positions ⟨o, some op', []⟩ := by
  show ReadStep P t o op positions ⟨{ o with refCount := o.refCount }, some op', []⟩
  exact .going hid held ordered output loads_nil fun _ => covers

/-- One step after another. -/
theorem ReadStep.trans {refCount : Nat → Nat} (hid : op'.id = op.id) (hloads : Loads t o evs)
    (hcovers : AllRender P evs → ∀ e ∈ o.sampleList, op.Covers e → op'.Covers e)
    (h : ReadStep P t { o with refCount } op' positions c) :
    ReadStep P t o op positions { c with events := evs ++ c.events } := by
  have hleft : ∀ {evs₂}, AllRender P (evs ++ evs₂) → AllRender P evs := fun h ev hev =>
    h ev (List.mem_append_left _ hev)
  have hright : ∀ {evs₂}, AllRender P (evs ++ evs₂) → AllRender P evs₂ := fun h ev hev =>
    h ev (List.mem_append_right _ hev)
  cases h with
  | going hid₂ held ordered output loads covers =>
    exact .going (hid₂.trans hid) held ordered output (hloads.append loads) fun hr e he hc =>
      covers (hright hr) e he (hcovers (hleft hr) e he hc)
  | ended hid₂ held ordered loads output covers =>
    rw [← List.append_assoc]
    exact .ended (hid₂.trans hid) held ordered (hloads.append loads) output fun hr e he hc =>
      covers (hright hr) e he (hcovers (hleft hr) e he hc)
  | failed hid₂ held ordered loads =>
    rw [← List.append_assoc]
    exact .failed (hid₂.trans hid) held ordered (hloads.append loads)

theorem held_letGo (h : Held o (op.nextEntryPtr.toList ++ positions)) :
    Held (o.letGo op.nextEntryPtr) positions := by
  cases hn : op.nextEntryPtr with
  | none =>
    rw [hn] at h
    exact h
  | some e =>
    rw [hn] at h
    exact held_release h

theorem ReadOperation.Ordered.done (h : op.Ordered) (output : CString) :
    ReadOperation.Ordered { op with nextEntryPtr := none, output } :=
  ⟨h.increasing, by simp⟩

/-- A read that fails lets go of its position. -/
theorem readStep_failed (h : Held o (op.nextEntryPtr.toList ++ positions)) (hord : op.Ordered) :
    ReadStep P t o op positions
      ⟨(endRead o op .commError).1, none, [(endRead o op .commError).2]⟩ := by
  have hheld := held_letGo h
  obtain ⟨refCount, hobs⟩ := letGo_frame o op.nextEntryPtr
  unfold endRead
  rw [hobs] at hheld ⊢
  show ReadStep P t o op positions ⟨_, none, [] ++ [.readDone _ .commError]⟩
  exact .failed rfl hheld (hord.done op.output) loads_nil

/-- The part of a text that has been written grows until the next load. -/
theorem nextState_sample (h : Held o (op.nextEntryPtr.toList ++ positions)) (hord : op.Ordered)
    {before : List CString} {n : Nat} (hstate : op.state = .sample)
    (htexts : op.texts = before ++ [op.writeBuffer])
    (hout : op.output = ascii "[" ++ before.flatMap (· ++ ascii ",") ++
      op.writeBuffer.take op.writeOffset)
    (hn : n ≤ op.writeBuffer.length - op.writeOffset)
    (hoff : op.writeOffset < op.writeBuffer.length) :
    Returns (nextState P t o op n) (ReadStep P t o op positions) := by
  have hpending : pendingBytes op = op.writeBuffer.drop op.writeOffset := by
    simp [pendingBytes, hstate]
  have hwritten : op.output ++ (op.writeBuffer.drop op.writeOffset).take n =
      ascii "[" ++ before.flatMap (· ++ ascii ",") ++ op.writeBuffer.take (op.writeOffset + n) := by
    rw [hout, List.append_assoc, ← List.take_add]
  unfold nextState
  simp only [hstate, hpending, hwritten]
  split
  · next hfull =>
    have hall : ascii "[" ++ before.flatMap (· ++ ascii ",") ++
        op.writeBuffer.take (op.writeOffset + n) =
        ascii "[" ++ (ascii ",").intercalate op.texts := by
      rw [htexts, intercalate_append_singleton, hfull, List.take_length, List.append_assoc]
    rw [hall]
    unfold loadReadOpBuffer
    refine (loadLoop_outcome (P := P) (t := t) (o := o) positions _ ?_ ?_).bind ?_
    · exact h
    · exact ⟨hord.increasing, hord.ahead⟩
    · rintro ⟨_, _, evs, found⟩ ⟨⟨rc, rfl⟩, ⟨next, wb, em, rfl⟩, hheld, hord', hloads, hfound,
        hnot, hcov⟩
      dsimp only at hheld hord' hloads hfound hnot hcov
      refine .going rfl hheld ⟨hord'.increasing, hord'.ahead⟩ ?_ hloads hcov
      unfold ReadOperation.OutputOk
      cases found with
      | true =>
        obtain ⟨htexts', hwb⟩ := hfound rfl
        exact ⟨op.texts, by simp [htexts], htexts', hwb, rfl, rfl⟩
      | false =>
        obtain ⟨htexts', _, hnone⟩ := hnot rfl
        exact ⟨hnone,
          congrArg (fun texts => ascii "[" ++ (ascii ",").intercalate texts) htexts'.symm⟩
  · next hpart =>
    refine .same rfl h ⟨hord.increasing, hord.ahead⟩ ?_ fun _ _ hc => hc
    unfold ReadOperation.OutputOk
    exact ⟨before, htexts, by dsimp only; omega, rfl⟩

/-- One write, and the change of state that follows it. -/
theorem nextState_step (h : Held o (op.nextEntryPtr.toList ++ positions)) (hord : op.Ordered)
    (hout : op.OutputOk) {n : Nat} (hpos : 0 < n) (hn : n ≤ (pendingBytes op).length) :
    Returns (nextState P t o op n) (ReadStep P t o op positions) := by
  have hout' := hout
  unfold ReadOperation.OutputOk at hout'
  cases hstate : op.state with
  | start =>
    rw [hstate] at hout'
    obtain ⟨hempty, hoff, htexts⟩ := hout'
    unfold nextState pendingBytes
    simp only [hstate, hempty, List.nil_append, take_single (b := ascii "[") rfl hpos]
    refine .same rfl h ⟨hord.increasing, hord.ahead⟩ ?_ fun _ _ hc => hc
    unfold ReadOperation.OutputOk
    rcases htexts with ⟨htexts, hwb, hnone⟩ | ⟨htexts, hwb⟩
    · rw [if_pos hwb]
      refine ⟨hnone, ?_⟩
      show ascii "[" = ascii "[" ++ (ascii ",").intercalate op.texts
      rw [htexts]
      simp [List.intercalate]
    · rw [if_neg hwb]
      refine ⟨[], htexts, ?_, ?_⟩
      · dsimp only
        rw [hoff]
        exact List.length_pos_iff.mpr hwb
      · simp [hoff]
  | sample =>
    rw [hstate] at hout'
    obtain ⟨before, htexts, hoff, houtput⟩ := hout'
    have hlen : (pendingBytes op).length = op.writeBuffer.length - op.writeOffset := by
      simp [pendingBytes, hstate]
    rw [hlen] at hn
    exact nextState_sample h hord hstate htexts houtput hn hoff
  | comma =>
    rw [hstate] at hout'
    obtain ⟨before, hne, htexts, hwb, hoff, houtput⟩ := hout'
    unfold nextState pendingBytes
    simp only [hstate, take_single (b := ascii ",") rfl hpos]
    refine .same rfl h ⟨hord.increasing, hord.ahead⟩ ?_ fun _ _ hc => hc
    unfold ReadOperation.OutputOk
    refine ⟨before, htexts, ?_, ?_⟩
    · dsimp only
      rw [hoff]
      exact List.length_pos_iff.mpr hwb
    · dsimp only
      rw [houtput, hoff, List.append_assoc, intercalate_append_sep _ hne]
      simp
  | closing =>
    rw [hstate] at hout'
    obtain ⟨hnone, houtput⟩ := hout'
    have hend := take_single (b := ascii "]") rfl hpos
    rw [hnone] at h
    unfold nextState endRead pendingBytes Observation.letGo
    simp only [hstate, hnone, hend]
    show ReadStep P t o op positions
      ⟨{ o with refCount := o.refCount }, none, [] ++ [.readDone _ .ok]⟩
    refine .ended rfl h ⟨hord.increasing, by simp⟩ loads_nil ?_ ?_
    · show op.output ++ ascii "]" = jsonArray op.texts
      rw [houtput]
      rfl
    · rintro _ e _ (⟨p, hp, _⟩ | he)
      · rw [hnone] at hp
        cases hp
      · exact he

/-- All that a read writes until it has to wait. -/
theorem continueReadOp_step (script : List WriteResult)
    (h : Held o (op.nextEntryPtr.toList ++ positions)) (hord : op.Ordered) (hout : op.OutputOk) :
    Returns (continueReadOp P t script o op) (ReadStep P t o op positions) := by
  have hwait : ReadStep P t o op positions ⟨o, some op, []⟩ :=
    .same rfl h hord hout fun _ _ hc => hc
  induction script generalizing o op with
  | nil => exact hwait
  | cons result script ih =>
    cases result with
    | again => exact hwait
    | failed => exact readStep_failed h hord
    | wrote n =>
      unfold continueReadOp
      have hlen := pendingBytes_length hout
      refine (nextState_step h hord hout (n := min (n + 1) (pendingBytes op).length) (by omega)
        (by omega)).bind fun c hc => ?_
      cases hc with
      | going hid held ordered output loads covers =>
        refine (ih held ordered output ?_).bind fun rest hrest => ?_
        · exact .same rfl held ordered output fun _ _ hc => hc
        · exact .trans hid loads covers hrest
      | ended hid held ordered loads output covers =>
        exact .ended hid held ordered loads output covers
      | failed hid held ordered loads => exact .failed hid held ordered loads

/-! ### The list of reads -/

/-- Where the reads stand. -/
def positionsOf (reads : List ReadOperation) : List BufferEntry := reads.filterMap (·.nextEntryPtr)

theorem positionsOf_append (l l' : List ReadOperation) :
    positionsOf (l ++ l') = positionsOf l ++ positionsOf l' := List.filterMap_append

theorem positionsOf_toList (c : Option ReadOperation) :
    positionsOf c.toList = (c.bind (·.nextEntryPtr)).toList := by
  cases c with
  | none => rfl
  | some op => cases h : op.nextEntryPtr <;> simp [positionsOf, h]

/-- One read's position may as well be put first. -/
theorem positionsOf_perm (before after : List ReadOperation) (c : Option ReadOperation) :
    (positionsOf (before ++ c.toList ++ after)).Perm
      ((c.bind (·.nextEntryPtr)).toList ++ positionsOf (before ++ after)) := by
  rw [positionsOf_append, positionsOf_append, positionsOf_append, positionsOf_toList,
    List.append_assoc]
  exact List.perm_append_comm_assoc ..

theorem store_eq {before after : List ReadOperation} {id : Nat}
    (hl : c.obs.readOpList = before ++ op :: after) (hid : op.id = id)
    (hb : ∀ r ∈ before, r.id ≠ id) (ha : ∀ r ∈ after, r.id ≠ id) :
    c.store id = { c.obs with readOpList := before ++ c.op.toList ++ after } := by
  unfold Continued.store
  cases c.op with
  | none =>
    have hfilter : ∀ l : List ReadOperation, (∀ r ∈ l, r.id ≠ id) →
        l.filter (fun r => decide (r.id ≠ id)) = l := fun l hne =>
      List.filter_eq_self.mpr fun r hr => by simpa using hne r hr
    dsimp only
    rw [hl, List.filter_append, List.filter_cons_of_neg (by simp [hid]), hfilter _ hb, hfilter _ ha]
    simp
  | some op' =>
    have hmap : ∀ l : List ReadOperation, (∀ r ∈ l, r.id ≠ id) →
        l.map (fun r => if r.id = id then op' else r) = l := by
      intro l hne
      rw [List.map_congr_left fun r hr => if_neg (hne r hr)]
      exact List.map_id' l
    dsimp only
    rw [hl, List.map_append, List.map_cons, if_pos hid, hmap _ hb, hmap _ ha]
    simp

/-- All reads of an Observation are in order, and the reference counts agree with them. -/
structure ReadsOk (o : Observation) : Prop where
  held : Held o (positionsOf o.readOpList)
  ids : (o.readOpList.map (·.id)).Nodup
  reads : ∀ op ∈ o.readOpList, op.Ordered ∧ op.OutputOk

theorem readsOk_obsCreate : ReadsOk obsCreate :=
  ⟨held_obsCreate, List.nodup_nil, fun _ hop => absurd hop List.not_mem_nil⟩

/-- The read goes back into the list. -/
theorem readsOk_of_readStep {before after : List ReadOperation}
    (hids : ((before ++ op :: after).map (·.id)).Nodup)
    (hothers : ∀ r ∈ before ++ after, r.Ordered ∧ r.OutputOk)
    (hstep : ReadStep P t o op (positionsOf (before ++ after)) c) :
    ReadsOk { c.obs with readOpList := before ++ c.op.toList ++ after } := by
  have hperm := positionsOf_perm before after c.op
  have hdrop : ((before ++ after).map (·.id)).Nodup := by
    refine hids.sublist ?_
    simp
  cases hstep with
  | @going rc op' _ hid held ordered output =>
    refine ⟨(held.perm hperm).congr rfl rfl rfl, ?_, ?_⟩
    · simpa [hid] using hids
    · intro r hr
      simp only [Option.toList_some, List.append_assoc, List.mem_append, List.mem_singleton] at hr
      rcases hr with hr | rfl | hr
      · exact hothers r (List.mem_append_left _ hr)
      · exact ⟨ordered, output⟩
      · exact hothers r (List.mem_append_right _ hr)
  | ended hid held | failed hid held =>
    refine ⟨(held.perm hperm).congr rfl rfl rfl, ?_, ?_⟩
    · simpa using hdrop
    · intro r hr
      exact hothers r (by simpa using hr)

/-- An event on a descriptor moves one read on, if it concerns any. -/
theorem fdEventHandler_step (h : ReadsOk o) (id : Nat) (hangUp : Bool) (script : List WriteResult) :
    Returns (readOpFdEventHandler P t o id hangUp script) fun r =>
      r = (o, []) ∨ ∃ before op after c, o.readOpList = before ++ op :: after ∧
        ReadStep P t o op (positionsOf (before ++ after)) c ∧
        r = ({ c.obs with readOpList := before ++ c.op.toList ++ after }, c.events) := by
  unfold readOpFdEventHandler
  split
  · exact .inl rfl
  · next op hfind =>
    obtain ⟨hid, before, after, hl, hb⟩ := List.find?_eq_some_iff_append.mp hfind
    have hid' : op.id = id := by simpa using hid
    have hnodup := h.ids
    rw [hl, List.map_append, List.map_cons, List.nodup_append] at hnodup
    have ha : ∀ r ∈ after, r.id ≠ id := by
      intro r hr heq
      have := (List.nodup_cons.mp hnodup.2.1).1
      exact this (List.mem_map.mpr ⟨r, hr, heq.trans hid'.symm⟩)
    have hheld : Held o (op.nextEntryPtr.toList ++ positionsOf (before ++ after)) := by
      refine h.held.perm ?_
      rw [hl]
      simpa using (positionsOf_perm before after (some op)).symm
    obtain ⟨hord, hout⟩ := h.reads op (by simp [hl])
    refine (continueReadOp_step (P := P) (t := t) _ hheld hord hout).bind fun c hc => ?_
    have hobs : c.obs.readOpList = before ++ op :: after := by
      cases hc <;> exact hl
    have hstore := store_eq hobs hid' (by simpa using hb) ha
    exact .inr ⟨before, op, after, c, hl, hc, by rw [hstore]⟩

theorem findAfter_mem {env : Environment} {startAfter : Double}
    (h : findAfter P env o startAfter = some e) : e ∈ o.sampleList := by
  have hfound : ∀ e ∈ findBufferEntry P env o startAfter, e ∈ o.sampleList := by
    unfold findBufferEntry
    split
    · exact fun e he => he
    · exact fun e he => (List.dropWhile_sublist _).mem he
  unfold findAfter at h
  split at h
  · cases h
  · next first rest hrest =>
    rw [hrest] at hfound
    split at h
    · exact hfound e (List.mem_cons_of_mem _ (List.mem_of_head? h))
    · cases h
      exact hfound _ (List.mem_cons_self ..)

/-- The list of reads is none of a read's business. -/
theorem ReadStep.relist {reads : List ReadOperation}
    (h : ReadStep P t { o with readOpList := reads } op positions c) :
    ReadStep P t o op positions { c with obs := { c.obs with readOpList := o.readOpList } } := by
  cases h with
  | @going refCount _ _ hid held ordered output loads covers =>
    show ReadStep P t o op positions ⟨{ o with refCount }, _, _⟩
    exact .going hid (held.congr rfl rfl rfl) ordered output loads covers
  | @ended refCount _ _ hid held ordered loads output covers =>
    show ReadStep P t o op positions ⟨{ o with refCount }, _, _⟩
    exact .ended hid (held.congr rfl rfl rfl) ordered loads output covers
  | @failed refCount _ _ hid held ordered loads =>
    show ReadStep P t o op positions ⟨{ o with refCount }, _, _⟩
    exact .failed hid (held.congr rfl rfl rfl) ordered loads

/-- A new read starts at the entry that is found for its start time. -/
theorem readBufferJson_step (h : ReadsOk o) {id : Nat} (hfresh : ∀ op ∈ o.readOpList, op.id ≠ id)
    (startAfter : Double) (script : List WriteResult) :
    Returns (obsReadBufferJson P ctx o id startAfter script) fun r =>
      ∃ op c refCount, op.id = id ∧ op.emitted = [] ∧
        op.nextEntryPtr = findAfter P ctx.env o startAfter ∧
        ReadStep P ctx.currentType { o with refCount } op (positionsOf o.readOpList) c ∧
        r = ({ c.obs with readOpList := o.readOpList ++ c.op.toList }, c.events) := by
  unfold obsReadBufferJson
  dsimp only
  have hheld : Held (o.hold (findAfter P ctx.env o startAfter))
      ((findAfter P ctx.env o startAfter).toList ++ positionsOf o.readOpList) := by
    cases hfind : findAfter P ctx.env o startAfter with
    | none => exact h.held
    | some e => exact held_addRef h.held (findAfter_mem hfind)
  obtain ⟨rc, hobs⟩ := hold_frame o (findAfter P ctx.env o startAfter)
  rw [hobs] at hheld ⊢
  generalize findAfter P ctx.env o startAfter = start at hheld ⊢
  unfold loadReadOpBuffer
  refine (loadLoop_outcome _ _ hheld
    ⟨List.Pairwise.nil, fun e he => absurd he List.not_mem_nil⟩).bind ?_
  rintro ⟨_, _, loads, found⟩ ⟨⟨rc₁, rfl⟩, ⟨next, wb, em, rfl⟩, hheld₁, hord, hloads, hfound, hnot,
    hcov⟩
  dsimp only at hheld₁ hord hloads hfound hnot hcov ⊢
  have hout : ReadOperation.OutputOk
      ⟨id, next, .start, wb, 0, em, []⟩ := by
    unfold ReadOperation.OutputOk
    refine ⟨rfl, rfl, ?_⟩
    cases found with
    | true => exact .inr (hfound rfl)
    | false => exact .inl (hnot rfl)
  have hheld₂ : Held { o with
        readOpList := o.readOpList ++ [⟨id, next, .start, wb, 0, em, []⟩], refCount := rc₁ }
      (next.toList ++ positionsOf o.readOpList) := hheld₁.congr rfl rfl rfl
  refine (continueReadOp_step script hheld₂ hord hout).bind fun c hc => ?_
  have hlist : c.obs.readOpList = o.readOpList ++ [⟨id, next, .start, wb, 0, em, []⟩] := by
    cases hc <;> rfl
  have hstore := store_eq hlist rfl hfresh (by simp)
  have hrelist := ReadStep.relist (o := { o with refCount := rc₁ }) hc
  refine ⟨⟨id, start, .start, [], 0, [], []⟩, _, rc, rfl, rfl, rfl,
    .trans ?_ hloads hcov hrelist, ?_⟩
  · rfl
  · rw [hstore]
    simp

end MangOH.DataHub
