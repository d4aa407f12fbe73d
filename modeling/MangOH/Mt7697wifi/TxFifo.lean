import Mathlib.Data.List.Nodup
import MangOH.Mt7697q.RingSafety
import MangOH.Mt7697wifi.TxPool

/-! The transmit path on top of a queue: what is accepted is written in order. -/
namespace MangOH.Mt7697wifi
open Interaction Lib Mt7697q Relation

/-- What a call returns and leaves. -/
def finishWrite (words : List Word) (run : Reply × World) : Except Errno Nat × World :=
  (run.1.ret, (client .m2s).finish run.2 (.write words) run.1)

/-- `mt7697q_write` on a queue that the slave reads. -/
def queueWrite (link : World) (words : List Word) : Except Errno Nat × World :=
  finishWrite words ((write link.qs words).run serve link)

section QueueWrite

variable {link link' : World} {words : List Word} {start : Nat} {run : Reply × World}

theorem finishWrite_sent (h : run.1.ret = .ok words.length) :
    (finishWrite words run).2.sent = run.2.sent ++ words := by
  unfold finishWrite client
  simp only [h, List.take_length]

theorem finishWrite_sent_of_again (h : run.1.ret = .error .again) :
    (finishWrite words run).2.sent = run.2.sent := by
  unfold finishWrite client
  simp only [h, List.append_nil]

variable {Inv : World → Prop} {p : Program Request Answer Reply}

theorem run_sent (p : Program Request Answer Reply) (link : World) :
    (p.run serve link).2.sent = link.sent := by
  induction p generalizing link with
  | done a => rfl
  | ask o next ih =>
    refine (ih _ _).trans ?_
    cases o <;> rfl

theorem finishWrite_cases (h : Safe (face .m2s) Inv p
      (fun r u => (r.ret = .ok words.length ∨ r.ret = .error .again) ∧
        Settled start ((client .m2s).finish u (.write words) r)) link) :
    Settled start (finishWrite words (p.run serve link)).2 ∧
      ((finishWrite words (p.run serve link)).1 = .ok words.length
          ∧ (finishWrite words (p.run serve link)).2.sent = link.sent ++ words
        ∨ (finishWrite words (p.run serve link)).1 = .error .again
          ∧ (finishWrite words (p.run serve link)).2.sent = link.sent) := by
  obtain ⟨hret, hsettled⟩ := h.run
  have hsent := run_sent p link
  refine ⟨hsettled, hret.imp (fun hret => ⟨hret, ?_⟩) fun hret => ⟨hret, ?_⟩⟩
  · rw [finishWrite_sent hret, hsent]
  · rw [finishWrite_sent_of_again hret, hsent]

theorem finishWrite_room {a : Ring Word} (ha : SettledAs a link)
    (hroom : words.length ≤ getFreeWords link.qs)
    (h : Safe (face .m2s) Inv p (fun r u => r.ret = .ok words.length ∧
      ∃ b, SettledAs b ((client .m2s).finish u (.write words) r) ∧ b.size = a.size ∧
        b.start = a.start ∧ b.freed = a.freed ∧ u.written = link.written ++ words) link) :
    (finishWrite words (p.run serve link)).1 = .ok words.length
      ∧ getFreeWords (finishWrite words (p.run serve link)).2.qs + words.length
        = getFreeWords link.qs := by
  obtain ⟨hret, b, hb, hsize, -, hfreed, hwritten⟩ := h.run
  have hfree := hb.freeWords
  have hlen : ((client .m2s).finish (p.run serve link).2 (.write words)
      (p.run serve link).1).written.length = link.written.length + words.length := by
    rw [← List.length_append]
    exact congrArg List.length hwritten
  change getFreeWords ((client .m2s).finish (p.run serve link).2 (.write words)
    (p.run serve link).1).qs = b.size - 1 - (((client .m2s).finish (p.run serve link).2
      (.write words) (p.run serve link).1).written.length - b.freed) at hfree
  rw [hlen, hsize, hfreed] at hfree
  refine ⟨hret, ?_⟩
  change getFreeWords ((client .m2s).finish (p.run serve link).2 (.write words)
    (p.run serve link).1).qs + words.length = _
  rw [ha.freeWords] at hroom ⊢
  have hle := ha.freed_le
  omega

/-- A write puts all its words into the queue, or none for want of room. -/
theorem queueWrite_cases (words : List UInt32) (h : Settled start link) :
    Settled start (queueWrite link words).2 ∧
      ((queueWrite link words).1 = .ok words.length
          ∧ (queueWrite link words).2.sent = link.sent ++ words
        ∨ (queueWrite link words).1 = .error .again
          ∧ (queueWrite link words).2.sent = link.sent) :=
  finishWrite_cases (write_safe h)

/-- With room by the host's own count it does, and takes so much room. -/
theorem queueWrite_room (h : Settled start link) (hroom : words.length ≤ getFreeWords link.qs) :
    (queueWrite link words).1 = .ok words.length
      ∧ getFreeWords (queueWrite link words).2.qs + words.length = getFreeWords link.qs := by
  obtain ⟨a, ha, rfl, hwr, hpub, hsent⟩ := h
  have hs : SettledAs a link := ⟨ha, hwr, hpub, hsent⟩
  exact finishWrite_room hs hroom (hs.write_safe hroom)

end QueueWrite

section Log

def okIds (log : List TxAct) : List Nat := log.filterMap fun
  | .ok id => some id
  | _ => none

def droppedIds (log : List TxAct) : List Nat := log.filterMap fun
  | .dropped id => some id
  | _ => none

def writtenIds (log : List TxAct) : List Nat := log.filterMap fun
  | .written id _ => some id
  | _ => none

def writtenWords (log : List TxAct) : List Word := log.flatMap fun
  | .written _ words => words
  | _ => []

variable {log new : List TxAct} {id : Nat}

@[simp] theorem okIds_append : okIds (log ++ new) = okIds log ++ okIds new := List.filterMap_append

@[simp] theorem droppedIds_append : droppedIds (log ++ new) = droppedIds log ++ droppedIds new :=
  List.filterMap_append

@[simp] theorem writtenIds_append : writtenIds (log ++ new) = writtenIds log ++ writtenIds new :=
  List.filterMap_append

@[simp] theorem writtenWords_append :
    writtenWords (log ++ new) = writtenWords log ++ writtenWords new := List.flatMap_append

theorem mem_okIds : id ∈ okIds log ↔ .ok id ∈ log := by
  refine ⟨fun h => ?_, fun h => List.mem_filterMap.mpr ⟨_, h, rfl⟩⟩
  obtain ⟨act, hact, heq⟩ := List.mem_filterMap.mp h
  cases act <;> cases heq
  exact hact

/-- Acts of a run that only writes. -/
def OnlyWrites (acts : List TxAct) : Prop := ∀ act ∈ acts, ∃ id words, act = .written id words

theorem OnlyWrites.okIds_eq (h : OnlyWrites new) : okIds new = [] := by
  refine List.filterMap_eq_nil_iff.mpr fun act hact => ?_
  obtain ⟨id, words, rfl⟩ := h act hact
  rfl

theorem OnlyWrites.droppedIds_eq (h : OnlyWrites new) : droppedIds new = [] := by
  refine List.filterMap_eq_nil_iff.mpr fun act hact => ?_
  obtain ⟨id, words, rfl⟩ := h act hact
  rfl

end Log

section Send

variable {start : Nat} {path : TxPath World}

@[simp] theorem length_words (req : TxReq) (num : Nat) : (req.words num).length = num := by
  simp [TxReq.words]

/-- A packet whose words are all written. -/
theorem sendPacket_of_ok {τ : Type} {write : τ → List Word → Except Errno Nat × τ}
    {path : TxPath τ} {skb : Skb} {words : List Word}
    (hwords : (path.txReq.fill skb.data).words skb.numWords = words)
    (hret : (write path.link words).1 = .ok skb.numWords) :
    (sendPacket write path skb).log = path.log ++ [.written skb.ref.id words] ∧
      (sendPacket write path skb).link = (write path.link words).2 := by
  unfold sendPacket wrTxRawPacket
  simp only [hwords, hret, ne_eq, not_true_eq_false, if_false, and_self]

/-- With room a packet is written. -/
theorem sendPacket_room (skb : Skb) (h : Settled start path.link)
    (hroom : skb.numWords ≤ getFreeWords path.link.qs) : ∃ words,
    (sendPacket queueWrite path skb).log = path.log ++ [.written skb.ref.id words] ∧
    Settled start (sendPacket queueWrite path skb).link ∧
    (sendPacket queueWrite path skb).link.sent = path.link.sent ++ words ∧
    getFreeWords (sendPacket queueWrite path skb).link.qs + skb.numWords
      = getFreeWords path.link.qs := by
  obtain ⟨words, hwords⟩ :
      ∃ words, (path.txReq.fill skb.data).words skb.numWords = words := ⟨_, rfl⟩
  have hlen : words.length = skb.numWords := hwords ▸ length_words _ _
  obtain ⟨hsettled, hcases⟩ := queueWrite_cases words h
  obtain ⟨hret, hfree⟩ := queueWrite_room h (hlen ▸ hroom)
  have hsent := hcases.resolve_right fun hagain => by
    rw [hret] at hagain
    cases hagain.1
  rw [hlen] at hret hfree
  obtain ⟨hlog, hlink⟩ := sendPacket_of_ok hwords hret
  rw [hlog, hlink]
  exact ⟨words, rfl, hsettled, hsent.2, hfree⟩

/-- With room for all the packets they are all written, in order. -/
theorem sendAll_room {skbs : List Skb} (h : Settled start path.link)
    (hroom : (skbs.map Skb.numWords).sum ≤ getFreeWords path.link.qs) : ∃ acts,
    OnlyWrites acts ∧ (skbs.foldl (sendPacket queueWrite) path).log = path.log ++ acts ∧
    writtenIds acts = skbs.map (·.ref.id) ∧
    Settled start (skbs.foldl (sendPacket queueWrite) path).link ∧
    (skbs.foldl (sendPacket queueWrite) path).link.sent = path.link.sent ++ writtenWords acts := by
  induction skbs generalizing path with
  | nil => exact ⟨[], List.forall_mem_nil _, by simp, rfl, h, by simp [writtenWords]⟩
  | cons skb skbs ih =>
    rw [List.map_cons, List.sum_cons] at hroom
    obtain ⟨words, hlog, hsettled, hsent, hfree⟩ := sendPacket_room skb h (by omega)
    obtain ⟨acts, hacts, hlog', hids, hsettled', hsent'⟩ := ih hsettled (by omega)
    refine ⟨.written skb.ref.id words :: acts, ?_, ?_, ?_, hsettled', ?_⟩
    · intro act hact
      rcases List.mem_cons.mp hact with rfl | hact
      · exact ⟨_, _, rfl⟩
      · exact hacts act hact
    · rw [List.foldl_cons, hlog', hlog, List.append_assoc]
      rfl
    · rw [List.map_cons, ← hids]
      rfl
    · rw [List.foldl_cons, hsent', hsent, List.append_assoc]
      rfl

end Send

structure TxFifoInv (start : Nat) (link : World) (s : TxState World) : Prop where
  settled : Settled start s.path.link
  nodup : s.txSkbList.Nodup
  linked : ∀ i ∈ s.txSkbList, s.txSkbPool i ≠ none
  queue_nil : s.txSkbQueue = []
  pending : s.txSkbList ≠ [] → s.txWorkPending = true
  inOrder : (okIds s.log).filter (· ∉ droppedIds s.log)
    = writtenIds s.log ++ s.held.map (·.ref.id)
  once : (okIds s.log).Nodup
  dropped_ok : ∀ id ∈ droppedIds s.log, id ∈ okIds s.log
  inQueue : s.path.link.sent = link.sent ++ writtenWords s.log
  freed_known : ∀ ref, .freed ref ∈ s.log → ref.id ∈ okIds s.log ∨ .busy ref.id ∈ s.log
  writtenFirst : ∀ before ref after, s.log = before ++ .freed ref :: after →
    ref.id ∈ okIds s.log → (ref.isCopy = true ↔ .copied ref.id ∈ s.log) →
    ref.id ∈ writtenIds before

section Steps

variable {start : Nat} {link : World} {s t : TxState World}

/-- What a call may add to the log so that what was freed was written first. -/
theorem writtenFirst_append {log new : List TxAct}
    (hold : ∀ before ref after, log = before ++ .freed ref :: after → ref.id ∈ okIds log →
      (ref.isCopy = true ↔ .copied ref.id ∈ log) → ref.id ∈ writtenIds before)
    (hok : ∀ ref, .freed ref ∈ log → ref.id ∈ okIds new → ref.id ∈ okIds log)
    (hcopied : ∀ id ∈ okIds log, .copied id ∉ new)
    (hnew : ∀ before ref after, new = before ++ .freed ref :: after →
      ref.id ∈ okIds (log ++ new) → (ref.isCopy = true ↔ .copied ref.id ∈ log ++ new) →
      ref.id ∈ writtenIds (log ++ before)) :
    ∀ before ref after, log ++ new = before ++ .freed ref :: after →
      ref.id ∈ okIds (log ++ new) → (ref.isCopy = true ↔ .copied ref.id ∈ log ++ new) →
      ref.id ∈ writtenIds before := by
  intro before ref after hsplit hid hcopy
  rcases List.append_eq_append_iff.mp hsplit with ⟨more, rfl, hnew'⟩ | ⟨more, hlog, hafter⟩
  · exact hnew more ref after hnew' hid hcopy
  · cases more with
    | nil =>
      rw [List.append_nil] at hlog
      rw [List.nil_append] at hafter
      have := hnew [] ref after hafter.symm hid hcopy
      rwa [List.append_nil, hlog] at this
    | cons act more =>
      obtain ⟨rfl, rfl⟩ := List.cons_eq_cons.mp hafter
      have hfreed : TxAct.freed ref ∈ log := by simp [hlog]
      have hid' : ref.id ∈ okIds log := by
        rw [okIds_append, List.mem_append] at hid
        exact hid.elim id (hok ref hfreed)
      refine hold before ref more hlog hid' (hcopy.trans ?_)
      rw [List.mem_append]
      exact or_iff_left (hcopied _ hid')

theorem TxFifoInv.held_ok (h : TxFifoInv start link s) {skb : Skb} (hskb : skb ∈ s.held) :
    skb.ref.id ∈ okIds s.log := by
  have hmem : skb.ref.id ∈ writtenIds s.log ++ s.held.map (·.ref.id) :=
    List.mem_append_right _ (List.mem_map.mpr ⟨skb, hskb, rfl⟩)
  rw [← h.inOrder] at hmem
  exact List.mem_of_mem_filter hmem

/-- What a run of the work does to the log. -/
theorem txWork_log (h : TxFifoInv start link s) (hstep : txWork queueWrite s = some t) :
    (∃ acts, (s.held.foldl (sendPacket queueWrite) s.path).log = s.log ++ acts ∧
      t.log = s.log ++ (acts ++ s.held.map fun skb => .freed skb.ref)) ∧
    t.path.link = (s.held.foldl (sendPacket queueWrite) s.path).link ∧
    t.txSkbList = [] ∧ t.txSkbQueue = [] ∧ t.held = [] := by
  obtain ⟨acts, -, hlog, rfl⟩ := txWork_eq h.nodup h.linked h.queue_nil hstep
  exact ⟨⟨acts, hlog, List.append_assoc _ _ _⟩, rfl, rfl, h.queue_nil, rfl⟩

/-- The freed buffers of a run of the work. -/
theorem freedRefs_ids (skbs : List Skb) :
    okIds (skbs.map fun skb => .freed skb.ref) = []
      ∧ droppedIds (skbs.map fun skb => .freed skb.ref) = []
      ∧ writtenIds (skbs.map fun skb => .freed skb.ref) = []
      ∧ writtenWords (skbs.map fun skb => .freed skb.ref) = [] := by
  simp [okIds, droppedIds, writtenIds, writtenWords, List.filterMap_map, List.flatMap_map]

/-- A run of the work that has room writes and frees all that was queued. -/
theorem TxFifoInv.txWork (h : TxFifoInv start link s)
    (hroom : (s.held.map Skb.numWords).sum ≤ getFreeWords s.path.link.qs)
    (hstep : txWork queueWrite s = some t) : TxFifoInv start link t := by
  obtain ⟨⟨acts, hlog, htlog⟩, htlink, htlist, htqueue, htheld⟩ := txWork_log h hstep
  obtain ⟨acts', hacts, hlog', hids, hsettled, hsent⟩ := sendAll_room h.settled hroom
  obtain rfl : acts = acts' := List.append_cancel_left (hlog.symm.trans hlog')
  obtain ⟨hfreedOk, hfreedDropped, hfreedWritten, hfreedWords⟩ := freedRefs_ids s.held
  have hok : okIds t.log = okIds s.log := by
    simp [htlog, hacts.okIds_eq, hfreedOk]
  have hdropped : droppedIds t.log = droppedIds s.log := by
    simp [htlog, hacts.droppedIds_eq, hfreedDropped]
  have hwritten : writtenIds t.log = writtenIds s.log ++ s.held.map (·.ref.id) := by
    simp [htlog, hids, hfreedWritten]
  refine ⟨?_, ?_, ?_, htqueue, ?_, ?_, ?_, ?_, ?_, ?_, ?_⟩
  · rw [htlink]
    exact hsettled
  · rw [htlist]
    exact List.nodup_nil
  · rw [htlist]
    exact List.forall_mem_nil _
  · rw [htlist]
    exact (absurd rfl ·)
  · rw [hok, hdropped, hwritten, htheld, h.inOrder, List.map_nil, List.append_nil]
  · rw [hok]
    exact h.once
  · rw [hok, hdropped]
    exact h.dropped_ok
  · rw [htlink, hsent, h.inQueue, htlog]
    simp [hfreedWords]
  · intro ref hfreed
    rw [hok]
    rw [htlog, List.mem_append, List.mem_append] at hfreed
    rcases hfreed with hfreed | hfreed | hfreed
    · exact (h.freed_known ref hfreed).imp id fun hbusy => by simp [htlog, hbusy]
    · obtain ⟨id, words, heq⟩ := hacts _ hfreed
      cases heq
    · obtain ⟨skb, hskb, heq⟩ := List.mem_map.mp hfreed
      cases heq
      exact .inl (h.held_ok hskb)
  · rw [htlog]
    refine writtenFirst_append h.writtenFirst ?_ ?_ ?_
    · intro ref _ hid
      rw [okIds_append, hacts.okIds_eq, hfreedOk] at hid
      cases hid
    · intro id _ hcopied
      rcases List.mem_append.mp hcopied with hmem | hmem
      · obtain ⟨id', words, heq⟩ := hacts _ hmem
        cases heq
      · obtain ⟨skb, -, heq⟩ := List.mem_map.mp hmem
        cases heq
    · -- the frees come after all the writes
      intro before ref after hsplit _ _
      have hmem : TxAct.freed ref ∈ s.held.map fun skb => TxAct.freed skb.ref := by
        have : TxAct.freed ref ∈ acts ++ s.held.map fun skb => TxAct.freed skb.ref := by
          simp [hsplit]
        refine (List.mem_append.mp this).resolve_left fun hmem => ?_
        obtain ⟨id, words, heq⟩ := hacts _ hmem
        cases heq
      obtain ⟨skb, hskb, heq⟩ := List.mem_map.mp hmem
      cases heq
      have hid : skb.ref.id ∈ writtenIds acts := by
        rw [hids]
        exact List.mem_map.mpr ⟨skb, hskb, rfl⟩
      rcases List.append_eq_append_iff.mp hsplit with ⟨more, rfl, -⟩ | ⟨more, hacts', hafter⟩
      · simp [hid]
      · cases more with
        | nil =>
          rw [List.append_nil] at hacts'
          simp [← hacts', hid]
        | cons act more =>
          obtain ⟨rfl, -⟩ := List.cons_eq_cons.mp hafter
          obtain ⟨id, words, heq⟩ := hacts (.freed skb.ref) (by simp [hacts'])
          cases heq

/-- The packets that a stop unlinks. -/
theorem droppedRefs_ids (skbs : List Skb) :
    okIds (skbs.map fun skb => .dropped skb.ref.id) = []
      ∧ droppedIds (skbs.map fun skb => .dropped skb.ref.id) = skbs.map (·.ref.id)
      ∧ writtenIds (skbs.map fun skb => .dropped skb.ref.id) = []
      ∧ writtenWords (skbs.map fun skb => .dropped skb.ref.id) = [] := by
  simp [okIds, droppedIds, writtenIds, writtenWords, List.filterMap_map, List.flatMap_map]

theorem filter_notMem_append {ids dropped written held : List Nat} (hids : ids.Nodup)
    (h : ids.filter (· ∉ dropped) = written ++ held) :
    ids.filter (· ∉ dropped ++ held) = written := by
  have hnodup : (written ++ held).Nodup := h ▸ hids.filter _
  have hdisjoint := List.disjoint_of_nodup_append hnodup
  have hfilter : ids.filter (· ∉ dropped ++ held)
      = (ids.filter (· ∉ dropped)).filter (· ∉ held) := by
    rw [List.filter_filter]
    refine List.filter_congr fun id _ => ?_
    simp [Bool.and_comm]
  rw [hfilter, h, List.filter_append]
  have hkeep : written.filter (· ∉ held) = written :=
    List.filter_eq_self.mpr fun id hid => by simpa using fun hheld => hdisjoint hid hheld
  have hdrop : held.filter (· ∉ held) = [] :=
    List.filter_eq_nil_iff.mpr fun id hid => by simpa using hid
  rw [hkeep, hdrop, List.append_nil]

/-- A stop unlinks what is queued. -/
theorem TxFifoInv.txStop (h : TxFifoInv start link s) (hstep : txStop s = some t) :
    TxFifoInv start link t := by
  obtain ⟨htlog, htlink, htlist, htqueue, htheld⟩ :
      t.log = s.log ++ (s.held.map fun skb => .dropped skb.ref.id) ∧
        t.path.link = s.path.link ∧ t.txSkbList = [] ∧ t.txSkbQueue = [] ∧ t.held = [] := by
    unfold Mt7697wifi.txStop at hstep
    rw [if_pos h.linked] at hstep
    cases hstep
    exact ⟨rfl, rfl, rfl, h.queue_nil, rfl⟩
  obtain ⟨hnewOk, hnewDropped, hnewWritten, hnewWords⟩ := droppedRefs_ids s.held
  have hok : okIds t.log = okIds s.log := by
    simp [htlog, hnewOk]
  have hdropped : droppedIds t.log = droppedIds s.log ++ s.held.map (·.ref.id) := by
    simp [htlog, hnewDropped]
  have hwritten : writtenIds t.log = writtenIds s.log := by
    simp [htlog, hnewWritten]
  have hnofreed : ∀ ref, TxAct.freed ref ∉ s.held.map fun skb => TxAct.dropped skb.ref.id := by
    intro ref hmem
    obtain ⟨skb, -, heq⟩ := List.mem_map.mp hmem
    cases heq
  refine ⟨?_, ?_, ?_, htqueue, ?_, ?_, ?_, ?_, ?_, ?_, ?_⟩
  · rw [htlink]
    exact h.settled
  · rw [htlist]
    exact List.nodup_nil
  · rw [htlist]
    exact List.forall_mem_nil _
  · rw [htlist]
    exact (absurd rfl ·)
  · rw [hok, hdropped, hwritten, htheld, filter_notMem_append h.once h.inOrder, List.map_nil,
      List.append_nil]
  · rw [hok]
    exact h.once
  · rw [hok, hdropped]
    intro id hid
    rcases List.mem_append.mp hid with hid | hid
    · exact h.dropped_ok id hid
    · obtain ⟨skb, hskb, rfl⟩ := List.mem_map.mp hid
      exact h.held_ok hskb
  · rw [htlink, h.inQueue, htlog]
    simp [hnewWords]
  · intro ref hfreed
    rw [hok]
    rw [htlog, List.mem_append] at hfreed
    exact (h.freed_known ref (hfreed.resolve_right (hnofreed ref))).imp id fun hbusy => by
      simp [htlog, hbusy]
  · rw [htlog]
    refine writtenFirst_append h.writtenFirst ?_ ?_ ?_
    · intro ref _ hid
      rw [hnewOk] at hid
      cases hid
    · intro id _ hcopied
      obtain ⟨skb, -, heq⟩ := List.mem_map.mp hcopied
      cases heq
    · intro before ref after hsplit
      exact (hnofreed ref (by simp [hsplit])).elim

/-- The acts of a call with a packet that was neither accepted nor refused before. -/
structure NewActs (id : Nat) (acts : List TxAct) : Prop where
  freed_id : ∀ ref, .freed ref ∈ acts → ref.id = id ∧ (.ok id ∈ acts ∨ .busy id ∈ acts)
  copied_id : ∀ id', .copied id' ∈ acts → id' = id
  ok_ids : okIds acts = [] ∨ okIds acts = [id]
  dropped_ids : droppedIds acts = []
  written_ids : writtenIds acts = []
  written_words : writtenWords acts = []
  /-- an accepted packet is freed at once only if there is a copy -/
  ok_copied : .ok id ∈ acts → ∀ ref, .freed ref ∈ acts → ref.isCopy = false ∧ .copied id ∈ acts

/-- The log of such a call. -/
theorem TxFifoInv.act (h : TxFifoInv start link s) {id : Nat} {acts : List TxAct}
    (hacts : NewActs id acts) (hok : .ok id ∉ s.log) (hbusy : .busy id ∉ s.log) :
    (okIds (s.log ++ acts)).Nodup ∧
      (∀ id ∈ droppedIds (s.log ++ acts), id ∈ okIds (s.log ++ acts)) ∧
      s.path.link.sent = link.sent ++ writtenWords (s.log ++ acts) ∧
      (∀ ref, .freed ref ∈ s.log ++ acts →
        ref.id ∈ okIds (s.log ++ acts) ∨ .busy ref.id ∈ s.log ++ acts) ∧
      ∀ before ref after, s.log ++ acts = before ++ .freed ref :: after →
        ref.id ∈ okIds (s.log ++ acts) → (ref.isCopy = true ↔ .copied ref.id ∈ s.log ++ acts) →
        ref.id ∈ writtenIds before := by
  have hid : id ∉ okIds s.log := fun hmem => hok (mem_okIds.mp hmem)
  refine ⟨?_, ?_, ?_, ?_, ?_⟩
  · rw [okIds_append]
    rcases hacts.ok_ids with heq | heq
    · rw [heq, List.append_nil]
      exact h.once
    · rw [heq]
      exact List.nodup_append.mpr ⟨h.once, List.nodup_singleton _, by
        intro a ha b hb heq
        rw [List.mem_singleton] at hb
        exact hid (hb ▸ heq ▸ ha)⟩
  · rw [droppedIds_append, hacts.dropped_ids, List.append_nil, okIds_append]
    exact fun id' hmem => List.mem_append_left _ (h.dropped_ok id' hmem)
  · rw [writtenWords_append, hacts.written_words, List.append_nil]
    exact h.inQueue
  · intro ref hfreed
    rcases List.mem_append.mp hfreed with hfreed | hfreed
    · exact (h.freed_known ref hfreed).imp (fun hmem => by simp [hmem]) fun hmem => by simp [hmem]
    · obtain ⟨rfl, hend⟩ := hacts.freed_id ref hfreed
      exact hend.imp (fun hmem => mem_okIds.mpr (by simp [hmem])) fun hmem => by simp [hmem]
  · refine writtenFirst_append h.writtenFirst ?_ ?_ ?_
    · -- a buffer freed before belongs to a packet that was known before
      intro ref hfreed hmem
      refine (h.freed_known ref hfreed).resolve_right fun hold => hbusy ?_
      have heq : ref.id = id := by
        rcases hacts.ok_ids with heq | heq
        · rw [heq] at hmem
          cases hmem
        · rw [heq] at hmem
          exact List.mem_singleton.mp hmem
      exact heq ▸ hold
    · intro id' hmem hcopied
      exact hid (hacts.copied_id id' hcopied ▸ hmem)
    · intro before ref after hsplit hmem hcopy
      have hfreed : TxAct.freed ref ∈ acts := by simp [hsplit]
      obtain ⟨rfl, -⟩ := hacts.freed_id ref hfreed
      have hokNew : TxAct.ok ref.id ∈ acts := by
        rw [mem_okIds, List.mem_append] at hmem
        exact hmem.resolve_left hok
      obtain ⟨horig, hcopied⟩ := hacts.ok_copied hokNew ref hfreed
      rw [horig] at hcopy
      cases hcopy.mpr (List.mem_append_right _ hcopied)

/-- A packet that is refused. -/
theorem TxFifoInv.refuse (h : TxFifoInv start link s) (id : Nat) (acts : List TxAct)
    (hacts : NewActs id acts) (hids : okIds acts = []) (hok : .ok id ∉ s.log)
    (hbusy : .busy id ∉ s.log) : TxFifoInv start link (s.act acts) := by
  obtain ⟨honce, hdropped, hqueue, hfreed, hfirst⟩ := h.act hacts hok hbusy
  refine ⟨h.settled, h.nodup, h.linked, h.queue_nil, h.pending, ?_, honce, hdropped, hqueue,
    hfreed, hfirst⟩
  change (okIds (s.log ++ acts)).filter (· ∉ droppedIds (s.log ++ acts))
    = writtenIds (s.log ++ acts) ++ s.held.map (·.ref.id)
  rw [okIds_append, droppedIds_append, writtenIds_append, hids, hacts.dropped_ids,
    hacts.written_ids, List.append_nil, List.append_nil, List.append_nil]
  exact h.inOrder

/-- A packet that is accepted and waits in the next slot. -/
theorem TxFifoInv.accept (h : TxFifoInv start link s) (skb : Skb) (acts : List TxAct) {idx : Nat}
    (hfree : s.txSkbPool s.txSkbPoolIdx = none) (hacts : NewActs skb.ref.id acts)
    (hids : okIds acts = [skb.ref.id]) (hok : .ok skb.ref.id ∉ s.log)
    (hbusy : .busy skb.ref.id ∉ s.log) :
    TxFifoInv start link { s.act acts with
      txSkbPool := Function.update s.txSkbPool s.txSkbPoolIdx (some skb)
      txSkbPoolIdx := idx
      txSkbList := s.txSkbList ++ [s.txSkbPoolIdx]
      txWorkPending := true } := by
  obtain ⟨honce, hdropped, hqueue, hfreed, hfirst⟩ := h.act hacts hok hbusy
  have hnot : s.txSkbPoolIdx ∉ s.txSkbList := fun hmem => h.linked _ hmem hfree
  refine ⟨h.settled, ?_, ?_, h.queue_nil, fun _ => rfl, ?_, honce, hdropped, hqueue, hfreed, hfirst⟩
  · exact List.nodup_append.mpr ⟨h.nodup, List.nodup_singleton _, by
      intro a ha b hb heq
      rw [List.mem_singleton] at hb
      exact hnot (hb ▸ heq ▸ ha)⟩
  · intro i hi
    by_cases heq : i = s.txSkbPoolIdx
    · simp [heq]
    · have hi' : i ∈ s.txSkbList := by simpa [heq] using hi
      simpa [Function.update_of_ne heq] using h.linked i hi'
  · change (okIds (s.log ++ acts)).filter (· ∉ droppedIds (s.log ++ acts)) =
      writtenIds (s.log ++ acts)
      ++ ((s.txSkbList ++ [s.txSkbPoolIdx]).filterMap
        (Function.update s.txSkbPool s.txSkbPoolIdx (some skb))).map (·.ref.id)
    have hnew : skb.ref.id ∉ droppedIds s.log := fun hmem =>
      hok (mem_okIds.mp (h.dropped_ok _ hmem))
    rw [held_fill hnot, okIds_append, droppedIds_append, writtenIds_append, hids,
      hacts.dropped_ids, hacts.written_ids, List.append_nil, List.append_nil, List.filter_append,
      h.inOrder, List.map_append, List.append_assoc]
    congr 1
    simp [hnew, TxState.held]

theorem TxFifoInv.dataTx {neededHeadroom : Nat} {skb : Skb} {realloc : Bool}
    (h : TxFifoInv start link s) (horig : skb.ref.isCopy = false) (hok : .ok skb.ref.id ∉ s.log)
    (hbusy : .busy skb.ref.id ∉ s.log) (hrealloc : skb.headroom < neededHeadroom → realloc = true) :
    TxFifoInv start link (dataTx neededHeadroom s skb realloc).2 := by
  obtain ⟨⟨id, copy⟩, headroom, data⟩ := skb
  obtain rfl : copy = false := horig
  unfold Mt7697wifi.dataTx
  rw [if_neg fun hfail => by simp [hrealloc hfail.1] at hfail]
  by_cases hroom : headroom < neededHeadroom
  · simp only [hroom, if_true, TxState.act]
    split
    · rw [List.append_assoc]
      exact h.refuse id [.copied id, .freed ⟨id, false⟩, .freed ⟨id, true⟩, .busy id]
        ⟨by simp, by simp, .inl rfl, rfl, rfl, rfl, by simp⟩ rfl hok hbusy
    · next hfree =>
      rw [List.append_assoc]
      exact h.accept ⟨⟨id, true⟩, neededHeadroom, data⟩
        [.copied id, .freed ⟨id, false⟩, .ok id] hfree
        ⟨by simp, by simp, .inr rfl, rfl, rfl, rfl, by simp⟩ rfl hok hbusy
  · simp only [hroom, if_false, TxState.act]
    split
    · exact h.refuse id [.freed ⟨id, false⟩, .busy id]
        ⟨by simp, by simp, .inl rfl, rfl, rfl, rfl, by simp⟩ rfl hok hbusy
    · next hfree =>
      exact h.accept ⟨⟨id, false⟩, headroom, data⟩ [.ok id] hfree
        ⟨by simp, by simp, .inr rfl, rfl, rfl, rfl, by simp⟩ rfl hok hbusy

end Steps

section Runs

variable {link : World} {neededHeadroom : Nat} {txReq : TxReq} {s t : TxState World}

/-- Nothing is handed in again that was refused, copies can be made, and the queue has room for
what the work finds. -/
def fifoHealthy (neededHeadroom : Nat) (s : TxState World) : TxEvent World → Prop
  | .dataTx skb realloc => .busy skb.ref.id ∉ s.log
      ∧ (skb.headroom < neededHeadroom → realloc = true)
  | .txWork => (s.held.map Skb.numWords).sum ≤ getFreeWords s.path.link.qs
  | _ => True

theorem TxFifoInv.step {start : Nat} (h : TxFifoInv start link s) {e : TxEvent World}
    (hok : fifoHealthy neededHeadroom s e)
    (hstep : (txMachine queueWrite Consumes neededHeadroom link txReq).Step s e t) :
    TxFifoInv start link t := by
  cases e with
  | dataTx skb realloc =>
    obtain ⟨horig, hnew, rfl⟩ := hstep
    exact h.dataTx horig hnew hok.1 hok.2
  | txWork => exact h.txWork hok hstep
  | txStop => exact h.txStop hstep
  | notifyTx headLen free =>
    obtain rfl : t = notifyTx s headLen free := hstep
    unfold notifyTx
    split
    · split
      · exact { h with pending := fun _ => rfl }
      · exact h
    · exact h
  | slave link' =>
    obtain ⟨hlink, rfl⟩ := hstep
    have hsent : link'.sent = s.path.link.sent := by cases hlink <;> rfl
    exact { h with
      settled := stable_idle .m2s start _ _ h.settled hlink
      inQueue := hsent.trans h.inQueue }

end Runs

section Full

end Full

end MangOH.Mt7697wifi
