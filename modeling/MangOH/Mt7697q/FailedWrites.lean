import MangOH.Lib.Faults
import MangOH.Mt7697q.RingSafety

/-! The driver's writes when a transfer of a call fails. -/
namespace MangOH.Mt7697q
open Interaction Relation

variable {a b : Ring Word} {s t u : World} {buff part : List Word} {n m : Nat}

/-- The answer of a transfer that failed. -/
def lost : (o : Request) → Errno → Answer o
  | .rdOffset, e => .error e
  | .wrOffset, e => .error e
  | .setRdOffset _, e => .error e
  | .setWrOffset _, e => .error e
  | .word _, e => .error e
  | .setWord _ _, e => .error e
  | .wrM2sMbx, e => .error e
  | .triggerIntr, e => .error e

/-- A call of `write`, and the transfer of it that fails. -/
structure Attempt where
  buff : List Word
  fault : Option (Fault Errno)

abbrev FaultyReply := Reply × Option (Fault Errno)

/-- The end of a call: words that the host's write offset does not cover are not in the queue. -/
def World.settle (s : World) (r : Reply) : World :=
  let kept := if r.qs.wrOffset = s.qs.wrOffset then s.sent else s.written
  { s with qs := r.qs, written := kept, sent := kept }

/-- The driver's writes, any of which may fail at any of its transfers. -/
def faultyClient : Client World Request Answer Attempt FaultyReply where
  program s call := (write s.qs call.buff).failing lost call.fault
  allowed _ _ := True
  finish s _ r := s.settle r.1

abbrev Attempts := History (face .m2s) faultyClient

/-- Between two calls the host's write offset covers what was written; the slave may not have been
told of all of it. -/
structure Standing (a : Ring Word) (s : World) : Prop extends Writer a s where
  hostWr : s.qs.wrOffset = a.slot s.written.length
  sent : s.sent = s.written

theorem serve_ne_lost (s : World) (o : Request) (e : Errno) : (serve s o).2 ≠ lost o e := by
  cases o <;> rintro ⟨⟩

theorem ioWr_steady (offset : Nat) (words : List Word) :
    (ioWr offset words).Steady lost (fun e r => r = .error e) (fun r => r = .ok ())
      words.length := by
  induction words generalizing offset with
  | nil => exact .done rfl
  | cons w words ih =>
    refine .ask (fun e => ⟨_, rfl, rfl⟩) fun x hx => ?_
    cases x with
    | error e => exact absurd rfl (hx e)
    | ok => exact ih (offset + 1)

theorem pullRdPtr_steady (qs : QueueData) :
    (pullRdPtr qs).Steady lost (fun e r => r = .error e) (fun _ => True) 1 := by
  refine .ask (fun e => ⟨_, rfl, rfl⟩) fun x _ => ?_
  cases x with
  | error e => exact .done trivial
  | ok offset => exact .done trivial

theorem pushWrPtr_steady (qs : QueueData) :
    (pushWrPtr qs).Steady lost (fun e r => r = .error e) (fun r => r = .ok ()) 3 := by
  refine .ask (fun e => ⟨_, rfl, rfl⟩) fun x hx => ?_
  cases x with
  | error e => exact absurd rfl (hx e)
  | ok =>
    refine .ask (fun e => ⟨_, rfl, rfl⟩) fun y hy => ?_
    cases y with
    | error e => exact absurd rfl (hy e)
    | ok =>
      refine .ask (fun e => ⟨_, rfl, rfl⟩) fun z hz => ?_
      cases z with
      | error e => exact absurd rfl (hz e)
      | ok => exact .done rfl

/-- A transfer of some words, followed by no other. -/
theorem ioWr_bind_steady {f : Except Errno Unit → Spi (Nat × Nat)} {offset : Nat}
    {words : List Word} (hn : words.length = n) (herror : ∀ e, f (.error e) = .done (.error e))
    (hok : ∃ v, f (.ok ()) = .done (.ok v) ∧ v.1 = n) :
    ((ioWr offset words).bind f).Steady lost (fun e r => r = .error e)
      (fun r => ∃ v, r = .ok v ∧ v.1 = n) n := by
  obtain ⟨v, hv, hvn⟩ := hok
  refine hn ▸ (ioWr_steady offset words).bind (n := 0) ?_ ?_
  · rintro e _ rfl
    exact ⟨_, herror e, rfl⟩
  · rintro _ rfl
    rw [hv]
    exact .done ⟨v, rfl, hvn.trans hn.symm⟩

theorem wordsBeforeEnd_le (buffWords readOffset writeOffset num : Nat) :
    wordsBeforeEnd buffWords readOffset writeOffset num ≤ num := by
  simp only [wordsBeforeEnd]
  split_ifs <;> omega

theorem wordsBeforeReader_le (readOffset writeOffset num : Nat) :
    wordsBeforeReader readOffset writeOffset num ≤ num := by
  simp only [wordsBeforeReader]
  split_ifs <;> omega

theorem writeToEnd_steady (buffWords readOffset writeOffset : Nat) (buff : List Word) :
    ∃ n, n ≤ buff.length ∧ (writeToEnd buffWords readOffset writeOffset buff).Steady lost
      (fun e r => r = .error e) (fun r => ∃ v, r = .ok v ∧ v.1 = n) n := by
  have hle := wordsBeforeEnd_le buffWords readOffset writeOffset buff.length
  unfold writeToEnd
  split
  · refine ⟨_, hle, ioWr_bind_steady ?_ (fun _ => rfl) ⟨_, rfl, rfl⟩⟩
    rw [List.length_take, Nat.min_eq_left hle]
  · exact ⟨0, Nat.zero_le _, .done ⟨_, rfl, rfl⟩⟩

theorem writeToReader_steady (readOffset writeOffset : Nat) (buff : List Word) :
    ∃ n, n ≤ buff.length ∧ (writeToReader readOffset writeOffset buff).Steady lost
      (fun e r => r = .error e) (fun r => ∃ v, r = .ok v ∧ v.1 = n) n := by
  have hle := wordsBeforeReader_le readOffset writeOffset buff.length
  unfold writeToReader
  split
  · refine ⟨_, hle, ioWr_bind_steady ?_ (fun _ => rfl) ⟨_, rfl, rfl⟩⟩
    rw [List.length_take, Nat.min_eq_left hle]
  · exact ⟨0, Nat.zero_le _, .done ⟨_, rfl, rfl⟩⟩

/-- How the part of a call after the check for room ends. -/
inductive WriteEnd (a : Ring Word) (s : World) (buff : List Word) (fault : Option (Fault Errno))
    (r : Reply) (u : World) : Prop
  | cut {e : Errno} {part : List Word} (hfault : ∃ x ∈ fault, x.after < buff.length)
      (hret : r.ret = .error e) (hqs : r.qs = s.qs) (hu : Writing a s a.published part u)
  | untold {e : Errno} {m : Nat}
      (hfault : ∃ x ∈ fault, buff.length ≤ x.after ∧ x.after < buff.length + 3)
      (hret : r.ret = .error e)
      (hqs : r.qs = { s.qs with wrOffset := a.slot (s.written.length + buff.length) })
      (hu : Writing a s m buff u)
  | told (hfault : ∀ x ∈ fault, buff.length + 3 ≤ x.after) (hret : r.ret = .ok buff.length)
      (hqs : r.qs = { s.qs with wrOffset := a.slot (s.written.length + buff.length) })
      (hu : Writing a s (s.written.length + buff.length) buff u)

/-- During a call a part of the message stands behind the words of the earlier ones. -/
def Partial (a : Ring Word) (s : World) (buff : List Word) (u : World) : Prop :=
  ∃ n m part, part <+: buff ∧ Writing (a.release n) s m part u

theorem Writing.release (h : Writing a s m part u) (hn : n ≤ a.returned) :
    Writing (a.release n) s m part u := by
  obtain ⟨b, hb, hsize, hstart, hfreed, hpub, hret, hrest⟩ := h
  exact ⟨b, hb, hsize, hstart, hfreed, hpub, Nat.le_trans hn hret, hrest⟩

theorem Writing.isPartial (hpart : part <+: buff) (h : Writing a s m part u) :
    Partial a s buff u :=
  ⟨a.returned, m, part, hpart, h.release le_rfl⟩

/-- The faults behind `n` requests. -/
theorem forall_skip {fault : Option (Fault Errno)} {n k : Nat}
    (hn : ∀ x ∈ fault, n ≤ x.after) (hk : ∀ x ∈ fault.map (Fault.skip n), k ≤ x.after) :
    ∀ x ∈ fault, n + k ≤ x.after := by
  rintro x ⟨⟩
  have hle := hn x rfl
  have hskip := hk _ rfl
  simp only [Fault.skip] at hskip
  omega

theorem exists_skip {fault : Option (Fault Errno)} {n k : Nat} {e : Errno}
    (hn : ∀ x ∈ fault, n ≤ x.after)
    (hk : ∃ x ∈ fault.map (Fault.skip n), x.after < k ∧ x.error = e) :
    ∃ x ∈ fault, n ≤ x.after ∧ x.after < n + k := by
  obtain ⟨y, hy, hlt, _⟩ := hk
  obtain ⟨x, hx, rfl⟩ := Option.map_eq_some_iff.mp hy
  have hle := hn x hx
  simp only [Fault.skip] at hlt
  exact ⟨x, hx, hle, by omega⟩

theorem skip_skip (fault : Option (Fault Errno)) (m n : Nat) :
    (fault.map (Fault.skip m)).map (Fault.skip n) = fault.map (Fault.skip (m + n)) := by
  cases fault with
  | none => rfl
  | some x => simp only [Option.map_some, Fault.skip, Nat.sub_sub]

/-- The part of a call that tells the slave. -/
theorem publish_failing {fault : Option (Fault Errno)} {offset num : Nat}
    (hpub : a.published ≤ s.written.length) (hu : Writing a s a.published buff u)
    (hoffset : offset = a.slot (s.written.length + buff.length)) (hnum : num = buff.length)
    (hmissed : ∀ x ∈ fault, buff.length ≤ x.after) :
    Safe (face .m2s) (Partial a s buff)
      (((pushWrPtr { s.qs with wrOffset := offset }).bind fun
        | .error e => .done (⟨.error e, [], { s.qs with wrOffset := offset }⟩ : Reply)
        | .ok () => .done ⟨.ok num, [], { s.qs with wrOffset := offset }⟩).failing lost
          (fault.map (Fault.skip buff.length)))
      (fun r t => WriteEnd a s buff fault r.1 t) u := by
  have hsafe : Safe (face .m2s) (fun t => ∃ m, Writing a s m buff t)
      (pushWrPtr { s.qs with wrOffset := offset }) _ u :=
    pushWrPtr_safe (n := s.written.length + buff.length) (by omega) rfl hoffset
      (fun m t ht => ⟨m, ht⟩) hu
  have hpush := hsafe.failing serve_ne_lost (pushWrPtr_steady _)
    (fault.map (Fault.skip buff.length))
  have hInv : ∀ t, (∃ m, Writing a s m buff t) → Partial a s buff t := by
    rintro t ⟨m, ht⟩
    exact ht.isPartial List.prefix_rfl
  rw [Program.failing_bind]
  refine Safe.bind (hpush.weaken hInv) ?_
  rintro ⟨r, left⟩ t (⟨hspared, hr, -, ht⟩ | ⟨e, ⟨hfault, -⟩, hr, m, ht⟩)
  · simp only at hr
    subst hr
    refine safe_done stable_writing ht fun v hv => ⟨hv.isPartial List.prefix_rfl, ?_⟩
    exact .told (forall_skip hmissed hspared.1) (congrArg Except.ok hnum)
      (congrArg (fun n => { s.qs with wrOffset := n }) hoffset) hv
  · simp only at hr
    subst hr
    refine safe_done stable_writing ht fun v hv => ⟨hv.isPartial List.prefix_rfl, ?_⟩
    exact .untold (exists_skip hmissed hfault) rfl
      (congrArg (fun n => { s.qs with wrOffset := n }) hoffset) hv

theorem writeWords_failing (h : Room a s buff) (fault : Option (Fault Errno)) :
    Safe (face .m2s) (Partial a s buff) ((writeWords s.qs buff).failing lost fault)
      (fun r u => WriteEnd a s buff fault r.1 u) s := by
  have hv := h.writer.valid
  have hsize : numWords s.qs.flags = a.size := by rw [h.writer.hostSize, h.writer.size]
  have hpub : a.published ≤ s.written.length := h.writer.written ▸ hv.published_le
  have hroom := h.room
  have hInv : ∀ u, (∃ part, part <+: buff ∧ Writing a s a.published part u) →
      Partial a s buff u := by
    rintro u ⟨part, hpart, hu⟩
    exact hu.isPartial hpart
  obtain ⟨k, hkle, hk⟩ := writeToEnd_steady a.size s.qs.rdOffset s.qs.wrOffset buff
  have hsafe : Safe (face .m2s) (fun u => ∃ part, part <+: buff ∧ Writing a s a.published part u)
      (writeToEnd a.size s.qs.rdOffset s.qs.wrOffset buff) _ s :=
    writeToEnd_safe h (fun part u hpart hu => ⟨part, hpart, hu⟩) (writing_self h.writer)
  have hfirst := hsafe.failing serve_ne_lost hk fault
  unfold writeWords
  simp only [hsize]
  rw [Program.failing_bind]
  refine Safe.bind (hfirst.weaken hInv) ?_
  rintro ⟨r, left⟩ t (⟨⟨hmissed, hleft⟩, ⟨⟨j, offset⟩, hr, hj⟩,
    v', hr', ⟨hle, hoffset, hrest⟩, ht⟩ |
    ⟨e, ⟨⟨x, hx, hlt, -⟩, -⟩, hr, part, hpart, ht⟩)
  · simp only at hr hr' hleft hj
    subst hr hleft hj
    cases hr'
    simp only at hle hoffset hrest ht ⊢
    have htake : (buff.take j).length = j := by rw [List.length_take, Nat.min_eq_left hle]
    have hdrop : (buff.drop j).length = buff.length - j := List.length_drop
    have hbegins : ∀ more, more <+: buff.drop j → buff.take j ++ more <+: buff := by
      intro more hmore
      conv => rhs; rw [← List.take_append_drop j buff]
      exact (List.prefix_append_right_inj _).mpr hmore
    obtain ⟨l, hlle, hl⟩ := writeToReader_steady s.qs.rdOffset offset (buff.drop j)
    have hbefore : buff.drop j ≠ [] → offset < s.qs.rdOffset ∧
        (buff.drop j).length < s.qs.rdOffset - offset := by
      intro hne
      have := List.length_pos_iff.mpr hne
      have := hrest (by omega)
      omega
    have hsafe : Safe (face .m2s) (fun u => ∃ part, part <+: buff ∧ Writing a s a.published part u)
        (writeToReader s.qs.rdOffset offset (buff.drop j)) _ t :=
      writeToReader_safe h (by omega) (by rw [htake]; exact hoffset) hbefore
        (fun more u hmore hu => ⟨_, hbegins more hmore, hu⟩) ht
    have hsecond := hsafe.failing serve_ne_lost hl (fault.map (Fault.skip j))
    rw [Program.failing_bind]
    refine Safe.bind (hsecond.weaken hInv) ?_
    rintro ⟨r, left⟩ u (⟨⟨hmissed', hleft⟩, ⟨⟨i, offset'⟩, hr, hi⟩,
      v', hr', ⟨hmore, hoffset'⟩, hu⟩ |
      ⟨e, ⟨hfault, -⟩, hr, part, hpart, hu⟩)
    · simp only at hr hr' hleft hi
      subst hr hleft hi
      cases hr'
      simp only at hmore hoffset' hu ⊢
      rw [List.take_append_drop] at hu
      have hlen : j + i = buff.length := by omega
      have hend : s.written.length + (buff.take j).length + (buff.drop j).length =
          s.written.length + buff.length := by omega
      rw [hend] at hoffset'
      have hlt : ¬ offset' ≥ a.size := by
        have := Ring.slot_lt hv (s.written.length + buff.length)
        omega
      simp only [if_neg hlt]
      rw [skip_skip, hlen]
      exact publish_failing hpub hu hoffset' rfl (hlen ▸ forall_skip hmissed hmissed')
    · simp only at hr
      subst hr
      refine safe_done stable_writing hu fun v hv => ⟨hv.isPartial hpart, ?_⟩
      obtain ⟨x, hx, -, hlt⟩ := exists_skip hmissed hfault
      exact .cut ⟨x, hx, by omega⟩ rfl rfl hv
  · simp only at hr
    subst hr
    refine safe_done stable_writing ht fun v hv => ⟨hv.isPartial hpart, ?_⟩
    exact .cut ⟨x, hx, by omega⟩ rfl rfl hv

theorem Standing.room (h : Standing a s) (hbuff : buff.length ≤ getFreeWords s.qs) :
    Room a s buff := by
  have hfree := h.toWriter.freeWords h.hostWr
  have hroom := h.valid.room
  have hlen : a.written.length = s.written.length := by rw [h.written]
  have hle := h.freed_le
  exact ⟨h.toWriter, h.hostWr, by omega⟩

/-- A call that did not move the host's write offset leaves the queue as it was, but for what the
host has learnt about the reader. -/
theorem Standing.unmoved {r : Reply} (h : Standing a s) (hn : a.freed ≤ n)
    (hqs : r.qs = { s.qs with rdOffset := a.slot n })
    (hu : Writing (a.release n) s m part u) (hm : m ≤ s.written.length) :
    (∃ c, Standing c (u.settle r)) ∧ (u.settle r).sent = s.sent := by
  obtain ⟨b, hb, hsize, hstart, hfreed, hpub, hret, huqs, husent, huwritten⟩ := hu
  have hslot := slot_congr (a := a) hsize hstart
  have hkept : (if r.qs.wrOffset = u.qs.wrOffset then u.sent else u.written) = s.written := by
    rw [if_pos (by rw [hqs, huqs]), husent, h.sent]
  have hle : b.published ≤ s.written.length := hpub ▸ hm
  have hconsumed : b.consumed ≤ s.written.length :=
    Nat.le_trans (Nat.le_trans hb.valid.consumed_le hb.valid.seen_le) hle
  have hlearn : (b.learn n).Valid := hb.valid.learn (Nat.le_trans hfreed.le hn) hret
  refine ⟨⟨(b.learn n).keep s.written.length, ⟨⟨hlearn.keep hle, hb.size, ?_, hb.slots, ?_, ?_,
    hb.sharedRd, hb.sharedWr⟩, ?_, hb.slaveRd, hb.slaveWr⟩, ?_, ?_⟩, hkept.trans h.sent.symm⟩
  · change numWords r.qs.flags = _
    rw [hqs]
    exact huqs ▸ hb.hostSize
  · change b.written.take s.written.length = if _ then _ else _
    rw [hkept, hb.written, huwritten, List.take_left]
  · change u.received = (if _ then _ else _ : List Word).take b.consumed
    rw [hkept, hb.received, huwritten, List.take_append_of_le_length hconsumed]
  · change r.qs.rdOffset = b.slot n
    rw [hqs, hslot]
  · change r.qs.wrOffset = b.slot (if _ then _ else _ : List Word).length
    rw [hkept, hqs, hslot]
    exact h.hostWr
  · rfl

theorem Standing.fresh (h : Standing a s) : s.qs = { s.qs with rdOffset := a.slot a.freed } := by
  rw [← h.hostRd]

/-- A call that moved it has put its whole message into the queue. -/
theorem Standing.moved {r : Reply} (h : Standing a s) (hbuff : buff.length < a.size)
    (hqs : r.qs = { s.qs with wrOffset := a.slot (s.written.length + buff.length) })
    (hu : Writing a s m buff u) :
    (∃ c, Standing c (u.settle r)) ∧ (u.settle r).sent = s.sent ++ buff := by
  obtain ⟨b, hb, hsize, hstart, hfreed, hpub, hret, huqs, husent, huwritten⟩ := hu
  have hslot := slot_congr (a := a) hsize hstart
  have hkept : (if r.qs.wrOffset = u.qs.wrOffset then u.sent else u.written) =
      s.written ++ buff := by
    split
    · rename_i heq
      rw [hqs, huqs, h.hostWr] at heq
      have := Ring.eq_of_slot_eq h.valid (Nat.le_add_right _ buff.length) (by omega) heq.symm
      obtain rfl : buff = [] := List.eq_nil_of_length_eq_zero (by omega)
      rw [husent, h.sent, List.append_nil]
    · exact huwritten
  refine ⟨⟨b, ⟨⟨hb.valid, hb.size, ?_, hb.slots, ?_, ?_, hb.sharedRd, hb.sharedWr⟩, ?_,
    hb.slaveRd, hb.slaveWr⟩, ?_, rfl⟩, by rw [h.sent]; exact hkept⟩
  · change numWords r.qs.flags = _
    rw [hqs]
    exact huqs ▸ hb.hostSize
  · change b.written = if _ then _ else _
    rw [hkept, hb.written, huwritten]
  · change u.received = (if _ then _ else _ : List Word).take b.consumed
    rw [hkept, hb.received, huwritten]
  · change r.qs.rdOffset = b.slot b.freed
    rw [hqs, hfreed, hslot]
    exact h.hostRd
  · change r.qs.wrOffset = b.slot (if _ then _ else _ : List Word).length
    rw [hkept, hqs, hslot, List.length_append]

/-- How a call of `write` ends. -/
inductive CallEnd (a : Ring Word) (s : World) (call : Attempt) (r : Reply) (u : World) : Prop
  | refused {e : Errno} {n : Nat} (hroom : getFreeWords s.qs < call.buff.length)
      (hret : r.ret = .error e) (hn : a.freed ≤ n)
      (hqs : r.qs = { s.qs with rdOffset := a.slot n })
      (hu : Writing (a.release n) s a.published [] u)
  | ends (hroom : call.buff.length ≤ getFreeWords s.qs)
      (hend : WriteEnd a s call.buff call.fault r u)

theorem Standing.published_le (h : Standing a s) : a.published ≤ s.written.length :=
  h.written ▸ h.valid.published_le

theorem Standing.write_ends (h : Standing a s) (call : Attempt) :
    Safe (face .m2s) (Partial a s call.buff) (faultyClient.program s call)
      (fun r u => CallEnd a s call r.1 u) s := by
  obtain ⟨buff, fault⟩ := call
  change Safe _ _ ((write s.qs buff).failing lost fault) _ _
  unfold write
  by_cases hroom : buff.length ≤ getFreeWords s.qs
  · simp only
    rw [if_neg (by omega)]
    exact (writeWords_failing (h.room hroom) fault).mono fun r u hu => .ends hroom hu
  simp only
  rw [if_pos (by omega), Program.failing_bind]
  have hsafe : Safe (face .m2s) (Writing a s a.published []) (pullRdPtr s.qs) _ s :=
    pullRdPtr_safe (fun u hu => hu) (writing_self h.toWriter)
  have hpull := hsafe.failing serve_ne_lost (pullRdPtr_steady s.qs) fault
  refine Safe.bind (hpull.weaken fun u hu => hu.isPartial List.nil_prefix) ?_
  rintro ⟨r, left⟩ t (⟨-, -, v, hr, n, hv, hn, ht⟩ | ⟨e, -, hr, ht⟩)
  · simp only at hr hv ⊢
    subst hr hv
    simp only
    rw [if_pos (by omega)]
    refine safe_done stable_writing ht fun u hu => ⟨⟨n, _, [], List.nil_prefix, hu⟩, ?_⟩
    exact .refused (by simp only; omega) rfl hn rfl hu
  · simp only at hr
    subst hr
    refine safe_done stable_writing ht fun u hu => ⟨hu.isPartial List.nil_prefix, ?_⟩
    exact .refused (by simp only; omega) rfl le_rfl h.fresh (hu.release h.valid.freed_le)

theorem CallEnd.standing {call : Attempt} {r : Reply} (h : Standing a s)
    (hend : CallEnd a s call r u) :
    (∃ c, Standing c (u.settle r)) ∧
      ((u.settle r).sent = s.sent ∨ (u.settle r).sent = s.sent ++ call.buff) := by
  have hlt : call.buff.length ≤ getFreeWords s.qs → call.buff.length < a.size := by
    intro hroom
    have hfree := h.toWriter.freeWords h.hostWr
    have hpos := h.valid.start_lt
    omega
  cases hend with
  | refused hroom hret hn hqs hu =>
    obtain ⟨hc, hsent⟩ := h.unmoved hn hqs hu h.published_le
    exact ⟨hc, .inl hsent⟩
  | ends hroom hend =>
    cases hend with
    | cut hfault hret hqs hu =>
      obtain ⟨hc, hsent⟩ := h.unmoved le_rfl (hqs.trans h.fresh) (hu.release h.valid.freed_le)
        h.published_le
      exact ⟨hc, .inl hsent⟩
    | untold hfault hret hqs hu =>
      obtain ⟨hc, hsent⟩ := h.moved (hlt hroom) hqs hu
      exact ⟨hc, .inr hsent⟩
    | told hfault hret hqs hu =>
      obtain ⟨hc, hsent⟩ := h.moved (hlt hroom) hqs hu
      exact ⟨hc, .inr hsent⟩

/-- The words before some calls, then whole messages of these calls, in order. -/
def Accounts (base : List Word) (calls : List Attempt) (words : List Word) : Prop :=
  ∃ messages : List (List Word), messages.Sublist (calls.map Attempt.buff) ∧
    words = base ++ messages.flatten

variable {base words : List Word} {calls : List Attempt} {call : Attempt}

theorem Accounts.skip (h : Accounts base calls words) : Accounts base (calls ++ [call]) words := by
  obtain ⟨messages, hsub, hwords⟩ := h
  refine ⟨messages, ?_, hwords⟩
  rw [List.map_append]
  exact hsub.trans (List.sublist_append_left _ _)

theorem Accounts.take (h : Accounts base calls words) (call : Attempt) :
    Accounts base (calls ++ [call]) (words ++ call.buff) := by
  obtain ⟨messages, hsub, hwords⟩ := h
  refine ⟨messages ++ [call.buff], ?_, ?_⟩
  · rw [List.map_append]
    exact hsub.append (List.Sublist.refl _)
  · rw [hwords, List.flatten_append, List.flatten_singleton, List.append_assoc]

/-- Between two calls the queue stands, and holds whole messages. -/
def StandingAfter (base : List Word) (calls : List Attempt) (s : World) : Prop :=
  (∃ a, Standing a s) ∧ Accounts base calls s.sent

/-- During a call the slave has received no more than whole messages and this one. -/
def ReceivedDuring (base : List Word) (calls : List Attempt) (call : Attempt) (s : World) : Prop :=
  ∃ words, Accounts base calls words ∧ s.received <+: words ++ call.buff

theorem stable_standingAfter (base : List Word) (calls : List Attempt) :
    (face .m2s).Stable (StandingAfter base calls) := by
  rintro s t ⟨⟨a, ha⟩, hsent⟩ hstep
  obtain ⟨b, hb, hsize, hstart, -, -, -, hqs, hsent', hwritten⟩ := ha.toWriter.consumes hstep
  refine ⟨⟨b, hb, ?_, ?_⟩, hsent' ▸ hsent⟩
  · rw [hqs, ha.hostWr, hwritten, slot_congr hsize hstart]
  · rw [hsent', ha.sent, hwritten]

theorem attempt_safe (hs : StandingAfter base calls s) :
    Safe (face .m2s) (ReceivedDuring base calls call) (faultyClient.program s call)
      (fun r u => StandingAfter base (calls ++ [call]) (faultyClient.finish u call r)) s := by
  obtain ⟨⟨a, ha⟩, hsent⟩ := hs
  refine ((ha.write_ends call).weaken ?_).mono ?_
  · rintro u ⟨n, m, part, hpart, b, hb, -, -, -, -, -, -, -, hwritten⟩
    refine ⟨s.sent, hsent, ?_⟩
    rw [ha.sent, hb.received, hwritten]
    exact (List.take_prefix _ _).trans ((List.prefix_append_right_inj _).mpr hpart)
  · intro r u hu
    obtain ⟨hc, hkept | hkept⟩ := hu.standing ha
    · refine ⟨hc, ?_⟩
      change Accounts base _ (u.settle r.1).sent
      rw [hkept]
      exact hsent.skip
    · refine ⟨hc, ?_⟩
      change Accounts base _ (u.settle r.1).sent
      rw [hkept]
      exact hsent.take call

theorem attempts_good {d : Config World Request Answer Attempt FaultyReply}
    (hs : StandingAfter base [] s) (hrun : Attempts ⟨s, none⟩ calls d) :
    d.GoodAfter (face .m2s) faultyClient (StandingAfter base) (ReceivedDuring base) calls := by
  refine good_of_history (stable_standingAfter base) (fun _ _ _ hu _ => attempt_safe hu) ?_ hrun
  exact hs

/-- All that the slave receives after `t` are the words of before `s` and whole later messages, the
last one perhaps cut short. -/
def Unseen (s t : World) : Prop :=
  ∀ later d, Attempts ⟨t, none⟩ later d →
    ∃ messages : List (List Word), messages.Sublist (later.map Attempt.buff) ∧
      d.state.received <+: s.sent ++ messages.flatten

theorem unseen_of_standing (ht : Standing a t) (hsent : t.sent = s.sent) : Unseen s t := by
  intro later d hrun
  have hstart : StandingAfter s.sent [] t :=
    ⟨⟨a, ht⟩, [], List.Sublist.refl _, by simpa using hsent⟩
  have hgood := attempts_good hstart hrun
  obtain ⟨w, call⟩ := d
  cases call with
  | none =>
    obtain ⟨⟨b, hb⟩, messages, hsub, hwords⟩ := hgood
    refine ⟨messages, hsub, ?_⟩
    rw [hb.received, ← hwords, hb.sent]
    exact List.take_prefix _ _
  | some call =>
    obtain ⟨before, rfl, hsafe⟩ := hgood
    obtain ⟨words, hwords, hreceived⟩ := hsafe.inv
    obtain ⟨messages, hsub, heq⟩ := hwords.take call.1
    exact ⟨messages, hsub, heq ▸ hreceived⟩

/-- What a call must do: send its message as a whole, or leave no trace of it. -/
structure AllOrNothing (s : World) (call : Attempt) (r : Reply) (t : World) : Prop where
  refused : ∀ e, r.ret = .error e → t.qs.wrOffset = s.qs.wrOffset ∧ Unseen s t
  written : r.ret = .ok call.buff.length → t.shared.wrOffset = t.qs.wrOffset

/-- The transfers that tell the slave do not fail, or are not reached, or have nothing to tell. -/
def Attempt.Tells (call : Attempt) (s : World) : Prop :=
  call.buff = [] ∨ getFreeWords s.qs < call.buff.length ∨
    ∀ x ∈ call.fault, x.after < call.buff.length ∨ call.buff.length + 3 ≤ x.after

theorem Standing.slot_ne (h : Standing a s) (hbuff : buff ≠ []) (hlt : buff.length < a.size) :
    a.slot (s.written.length + buff.length) ≠ s.qs.wrOffset := by
  intro heq
  rw [h.hostWr] at heq
  have hlen := Ring.eq_of_slot_eq h.valid (Nat.le_add_right _ buff.length) (by omega) heq.symm
  have hpos := List.length_pos_iff.mpr hbuff
  omega

theorem CallEnd.allOrNothing {r : Reply} (h : Standing a s) (htells : call.Tells s)
    (hend : CallEnd a s call r u) : AllOrNothing s call r (u.settle r) := by
  cases hend with
  | refused hroom hret hn hqs hu =>
    obtain ⟨⟨c, hc⟩, hsent⟩ := h.unmoved hn hqs hu h.published_le
    have hwr : r.qs.wrOffset = s.qs.wrOffset := by rw [hqs]
    refine ⟨fun e _ => ⟨hwr, unseen_of_standing hc hsent⟩, ?_⟩
    intro hok
    cases hret.symm.trans hok
  | ends hroom hend =>
    cases hend with
    | cut hfault hret hqs hu =>
      obtain ⟨⟨c, hc⟩, hsent⟩ := h.unmoved le_rfl (hqs.trans h.fresh)
        (hu.release h.valid.freed_le) h.published_le
      have hwr : r.qs.wrOffset = s.qs.wrOffset := by rw [hqs]
      refine ⟨fun e _ => ⟨hwr, unseen_of_standing hc hsent⟩, ?_⟩
      intro hok
      cases hret.symm.trans hok
    | untold hfault hret hqs hu =>
      obtain ⟨x, hx, hle, hlt⟩ := hfault
      have hnil : call.buff = [] := by
        obtain hnil | hsmall | htold := htells
        · exact hnil
        · omega
        · have := htold x hx
          omega
      have hwr : r.qs.wrOffset = s.qs.wrOffset := by
        rw [hqs, hnil, h.hostWr]
        rfl
      obtain ⟨⟨c, hc⟩, hsent⟩ := h.moved (by rw [hnil]; exact Nat.zero_lt_of_lt h.valid.start_lt)
        hqs hu
      rw [hnil, List.append_nil] at hsent
      refine ⟨fun e _ => ⟨hwr, unseen_of_standing hc hsent⟩, ?_⟩
      intro hok
      cases hret.symm.trans hok
    | told hfault hret hqs hu =>
      refine ⟨fun e herror => ?_, fun _ => ?_⟩
      · cases hret.symm.trans herror
      · obtain ⟨b, hb, hsize, hstart, -, hpub, -⟩ := hu
        change u.shared.wrOffset = r.qs.wrOffset
        rw [hb.sharedWr, hpub, hqs, slot_congr hsize hstart]

/-- Whatever the slave does between the transfers of a call, the call is all or nothing. -/
def WritesAtomically (s : World) (call : Attempt) : Prop :=
  Safe (face .m2s) (fun _ => True) (faultyClient.program s call)
    (fun r u => AllOrNothing s call r.1 (faultyClient.finish u call r)) s

theorem Standing.atomic_iff (ha : Standing a s) (call : Attempt) :
    WritesAtomically s call ↔ call.Tells s := by
  have hends := ha.write_ends call
  constructor
  · intro hsafe
    by_contra hnot
    simp only [Attempt.Tells, not_or, not_forall] at hnot
    obtain ⟨hbuff, hroom, x, hx, hafter⟩ := hnot
    have hlt : call.buff.length < a.size := by
      have hfree := ha.toWriter.freeWords ha.hostWr
      have hpos := ha.valid.start_lt
      omega
    obtain ⟨r, u, hatomic, hend⟩ :
        ∃ r u, AllOrNothing s call r (World.settle u r) ∧ CallEnd a s call r u :=
      ⟨_, _, hsafe.run, hends.run⟩
    cases hend with
    | refused hsmall => exact hroom hsmall
    | ends _ hend =>
      cases hend with
      | cut hfault =>
        obtain ⟨y, hy, hlt⟩ := hfault
        cases hx.symm.trans hy
        omega
      | untold _ hret hqs hu =>
        have hwr := (hatomic.refused _ hret).1
        change r.qs.wrOffset = s.qs.wrOffset at hwr
        rw [hqs] at hwr
        exact ha.slot_ne hbuff hlt hwr
      | told hfault =>
        have := hfault x hx
        omega
  · intro htells
    refine (hends.weaken fun _ _ => trivial).mono fun r u hend => ?_
    exact hend.allOrNothing ha htells

theorem World.Initial.standing (h : s.Initial) : ∃ a, Standing a s := by
  obtain ⟨a, ha, -, hwr, hpub, hsent⟩ := h.idle .m2s
  exact ⟨a, ha, by rw [hwr, hpub, ha.written], hsent⟩

/-- Between two calls the queue stands, whichever transfers have failed. -/
theorem attempts_standing (hs : s.Initial) (hrun : Attempts ⟨s, none⟩ calls ⟨t, none⟩) :
    ∃ a, Standing a t := by
  have hstart : StandingAfter s.sent [] s :=
    ⟨hs.standing, [], List.Sublist.refl _, (List.append_nil _).symm⟩
  exact (attempts_good hstart hrun).1

/-- In every state between two calls, a call is all or nothing if and only if none of the
transfers fails that tell the slave about its words. -/
theorem writesAtomically_iff (hs : s.Initial) (hrun : Attempts ⟨s, none⟩ calls ⟨t, none⟩)
    (call : Attempt) : WritesAtomically t call ↔ call.Tells t := by
  obtain ⟨a, ha⟩ := attempts_standing hs hrun
  exact ha.atomic_iff call

/-- One word, whose mailbox write fails. -/
def mailboxFails : Attempt := ⟨[7], some ⟨2, false, .io⟩⟩

theorem writesAtomically_lastSlot :
    lastSlot.Initial ∧ ¬ mailboxFails.Tells lastSlot ∧
      (WritesAtomically lastSlot mailboxFails ↔ mailboxFails.Tells lastSlot) := by
  refine ⟨lastSlot_initial, ?_, writesAtomically_iff lastSlot_initial .refl mailboxFails⟩
  rintro (hnil | hroom | hfault)
  · cases hnil
  · exact absurd hroom (by decide +kernel)
  · exact absurd (hfault _ rfl) (by decide)

/-- The driver reports a failure after its write offset has moved. -/
theorem writesAtomically_fails :
    ¬ ∀ s t calls, s.Initial → Attempts ⟨s, none⟩ calls ⟨t, none⟩ →
      ∀ call, WritesAtomically t call := by
  intro h
  have hcall := (h lastSlot lastSlot [] lastSlot_initial .refl mailboxFails).run
  have hwr := (hcall.refused .io (by decide +kernel)).1
  exact absurd hwr (by decide +kernel)

end MangOH.Mt7697q
