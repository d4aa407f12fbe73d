import MangOH.Mt7697q.Ends

/-! The driver's reads, word by word, against a slave that writes meanwhile. -/
namespace MangOH.Mt7697q
open Interaction

variable {a : Ring Word} {s t : World}

/-- A call of the driver from `s` at the reading end has changed no position of its own yet. -/
def Reading (a : Ring Word) (s t : World) : Prop :=
  ∃ b, Reader b t ∧ b.size = a.size ∧ b.start = a.start ∧ b.consumed = a.consumed ∧
    b.seen = a.seen ∧ a.published ≤ b.published ∧ t.qs = s.qs ∧ t.received = s.received ∧
    s.written <+: t.written

theorem stable_reading : (face .s2m).Stable (Reading a s) := by
  rintro t u ⟨b, hb, hsize, hstart, hread, hseen, hpub, hqs, hreceived, hwritten⟩ hstep
  obtain ⟨c, hc, hsize', hstart', hread', hseen', hpub', hqs', hreceived', hwritten'⟩ :=
    hb.produces hstep
  exact ⟨c, hc, hsize'.trans hsize, hstart'.trans hstart, hread'.trans hread,
    hseen'.trans hseen, Nat.le_trans hpub hpub', hqs'.trans hqs, hreceived'.trans hreceived,
    hwritten.trans hwritten'⟩

theorem reading_self (ha : Reader a s) : Reading a s s :=
  ⟨a, ha, rfl, rfl, rfl, rfl, le_rfl, rfl, rfl, List.prefix_rfl⟩

theorem Reader.seen_le (ha : Reader a s) : a.seen ≤ s.written.length := by
  rw [← ha.written]
  exact Nat.le_trans ha.valid.seen_le ha.valid.published_le

/-- Between two calls of the driver at the reading end. -/
def Listening (start : Nat) (s : World) : Prop := ∃ a, Reader a s ∧ a.start = start

theorem Reading.listening (h : Reading a s t) : Listening a.start t := by
  obtain ⟨b, hb, _, hstart, _⟩ := h
  exact ⟨b, hb, hstart⟩

/-- An unread word that the driver knows of. -/
theorem Reading.word {i : Nat} (h : Reading a s t) (hi : a.consumed ≤ i)
    (hlt : i < s.written.length) : t.words (a.slot i) = s.written[i] := by
  obtain ⟨b, hb, hsize, hstart, hread, _, _, _, _, hwritten⟩ := h
  rw [← slot_congr hsize hstart, hb.word (hlt.trans_le hwritten.length_le) (by omega),
    hwritten.getElem hlt]

/-- A transfer of unread words that does not run over the end of the ring. -/
theorem ioRd_safe {offset i num : Nat} (ha : Reader a s) (hi : a.consumed ≤ i)
    (hnum : i + num ≤ a.seen) (hoffset : num ≠ 0 → offset = a.slot i)
    (hend : offset + num ≤ a.size) (ht : Reading a s t) :
    Safe (face .s2m) (Listening a.start) (ioRd offset num)
      (fun r u => r = .ok ((s.written.drop i).take num) ∧ Reading a s u) t := by
  induction num generalizing offset i t with
  | zero =>
    refine safe_done stable_reading ht fun u hu => ⟨hu.listening, ?_, hu⟩
    rw [List.take_zero]
  | succ num ih =>
    have hslot := hoffset (by omega)
    refine safe_ask stable_reading ht fun u hu => ⟨hu.listening, ?_⟩
    have hlt : i < s.written.length := by
      have := ha.seen_le
      omega
    have hword := hu.word hi hlt
    have hrest := @ih _ (offset + 1) (i + 1) (by omega) (by omega) ?_ (by omega) hu
    · refine Safe.bind hrest ?_
      rintro r v ⟨rfl, hv⟩
      refine safe_done stable_reading hv fun w hw => ⟨hw.listening, ?_, hw⟩
      rw [hslot, hword, List.drop_eq_getElem_cons hlt, List.take_succ_cons]
    · intro hne
      rw [Ring.slot_succ ha.valid, ← hslot, if_neg (by omega)]

/-- The words that the driver knows of, and the wrap of its two offsets. -/
theorem Reader.distance (ha : Reader a s) : ∃ d, a.seen = a.consumed + d ∧ d < a.size ∧
    getNumWords s.qs = d ∧ s.qs.wrOffset =
      if s.qs.rdOffset + d < a.size then s.qs.rdOffset + d else s.qs.rdOffset + d - a.size := by
  have hv := ha.valid
  obtain ⟨d, hd⟩ := Nat.exists_eq_add_of_le hv.consumed_le
  have hlt : d < a.size := by
    have := hv.unread_lt
    have := ha.seen_le
    rw [← ha.written] at this
    omega
  refine ⟨d, hd, hlt, ?_, ?_⟩
  · rw [getNumWords, ha.hostRd, ha.hostWr, ha.diff_slot hv.consumed_le (by omega)]
    omega
  · rw [ha.hostRd, ha.hostWr, hd, Ring.slot_add hv (by omega)]

theorem readToEnd_safe {num : Nat} (ha : Reader a s) (hnum : num ≤ getNumWords s.qs)
    (ht : Reading a s t) :
    Safe (face .s2m) (Listening a.start)
      (readToEnd a.size s.qs.rdOffset s.qs.wrOffset num)
      (fun r u => ∃ v, r = .ok v ∧ (∃ k, k ≤ num ∧ v.1 = (s.written.drop a.consumed).take k ∧
        v.2 = a.slot (a.consumed + k) ∧
        (k < num → v.2 ≤ s.qs.wrOffset ∧ num - k ≤ s.qs.wrOffset - v.2)) ∧ Reading a s u) t := by
  have hv := ha.valid
  have hsize := ha.size_lt
  have hrd := Ring.slot_lt hv a.consumed
  rw [← ha.hostRd] at hrd
  obtain ⟨d, hd, hlt, havail, hwr⟩ := ha.distance
  rw [havail] at hnum
  unfold readToEnd
  split
  case isTrue hgt =>
    have hwrap : ¬ s.qs.rdOffset + d < a.size := by split at hwr <;> omega
    rw [if_neg hwrap] at hwr
    simp (disch := omega) only [sub32_of_le]
    generalize hk : (if num ≤ a.size - s.qs.rdOffset then num else a.size - s.qs.rdOffset) = k
    have hkn : k ≤ num := by split at hk <;> omega
    have hend : s.qs.rdOffset + k ≤ a.size := by split at hk <;> omega
    refine Safe.bind (ioRd_safe ha le_rfl (by omega) (fun _ => ha.hostRd) hend ht) ?_
    rintro r u ⟨rfl, hu⟩
    have hslot := wrap_slot ha.toHolds (ha.hostRd ▸ hend)
    rw [← ha.hostRd] at hslot
    refine safe_done stable_reading hu fun x hx => ⟨hx.listening, _, rfl,
      ⟨k, hkn, rfl, hslot, fun hmore => ?_⟩, hx⟩
    have hfull : s.qs.rdOffset + k = a.size := by split at hk <;> omega
    have hzero : a.slot (a.consumed + k) = 0 := by
      rw [Ring.slot_add hv (by omega), ← ha.hostRd, if_neg (by omega)]
      omega
    simp only [hslot, hzero]
    omega
  case isFalse hle =>
    have hstraight : s.qs.rdOffset + d < a.size := by split at hwr <;> omega
    rw [if_pos hstraight] at hwr
    refine safe_done stable_reading ht fun x hx => ⟨hx.listening, _, rfl,
      ⟨0, Nat.zero_le _, rfl, ha.hostRd, fun _ => ?_⟩, hx⟩
    simp only
    omega

theorem readToWriter_safe {num k readOffset : Nat} (ha : Reader a s)
    (hnum : num ≤ getNumWords s.qs) (hk : k ≤ num) (hoffset : readOffset = a.slot (a.consumed + k))
    (hbefore : k < num → readOffset ≤ s.qs.wrOffset ∧ num - k ≤ s.qs.wrOffset - readOffset)
    (ht : Reading a s t) :
    Safe (face .s2m) (Listening a.start) (readToWriter readOffset s.qs.wrOffset k num)
      (fun r u => ∃ v, r = .ok v ∧
        (v.1 = (s.written.drop (a.consumed + k)).take (num - k) ∧
          v.2 = a.slot (a.consumed + num)) ∧ Reading a s u) t := by
  have hv := ha.valid
  have hsize := ha.size_lt
  obtain ⟨d, hd, hlt, havail, hwr⟩ := ha.distance
  have hwrlt := Ring.slot_lt hv a.seen
  rw [← ha.hostWr] at hwrlt
  unfold readToWriter
  split
  case isTrue hmore =>
    obtain ⟨hle, hfit⟩ := hbefore hmore
    simp (disch := omega) only [sub32_of_le, if_pos hfit]
    refine Safe.bind (ioRd_safe (i := a.consumed + k) ha (by omega) (by omega) (fun _ => hoffset)
      (by omega) ht) ?_
    rintro r u ⟨rfl, hu⟩
    refine safe_done stable_reading hu fun x hx => ⟨hx.listening, _, rfl, ⟨rfl, ?_⟩, hx⟩
    have hsplit : a.consumed + num = a.consumed + k + (num - k) := by omega
    rw [u16_of_lt (by omega), hsplit, Ring.slot_add hv (by omega), ← hoffset, if_pos (by omega)]
  case isFalse hdone =>
    have heq : k = num := by omega
    subst heq
    refine safe_done stable_reading ht fun x hx => ⟨hx.listening, _, rfl, ⟨?_, hoffset⟩, hx⟩
    rw [Nat.sub_self, List.take_zero]

/-- The driver has read the first `n` words of a queue and knows of the first `m`. -/
def Heard (start n m : Nat) (s : World) : Prop :=
  ∃ a, Reader a s ∧ a.start = start ∧ a.consumed = n ∧ a.seen = m

/-- The queue once the driver has kept these control words and read these words. -/
def World.after (s : World) (qs : QueueData) (words : List Word) : World :=
  { s with qs := qs, received := s.received ++ words }

theorem Heard.listening {start n m : Nat} (h : Heard start n m s) : Listening start s := by
  obtain ⟨a, ha, hstart, _⟩ := h
  exact ⟨a, ha, hstart⟩

theorem Heard.avail {start n m : Nat} (h : Heard start n m s) : getNumWords s.qs = m - n := by
  obtain ⟨a, ha, _, rfl, rfl⟩ := h
  obtain ⟨d, hd, _, havail, _⟩ := ha.distance
  omega

theorem Heard.le {start n m : Nat} (h : Heard start n m s) : n ≤ m ∧ m ≤ s.written.length := by
  obtain ⟨a, ha, _, rfl, rfl⟩ := h
  exact ⟨ha.valid.consumed_le, ha.seen_le⟩

/-- A read of words that are available returns them, and no others. -/
theorem read_heard {start n m num : Nat} (hs : Heard start n m s) (hnum : num ≤ m - n) :
    Safe (face .s2m) (Listening start) (read s.qs num)
      (fun r u => (r.ret = .ok num ∧ r.buf = (s.written.drop n).take num) ∧
        s.written <+: u.written ∧ Heard start (n + num) m (u.after r.qs r.buf)) s := by
  rw [← hs.avail] at hnum
  obtain ⟨a, ha, rfl, rfl, rfl⟩ := hs
  have hv := ha.valid
  have hsize : numWords s.qs.flags = a.size := by rw [ha.hostSize, ha.size]
  obtain ⟨d, hd, hlt, havail, hwr⟩ := ha.distance
  have hseen := ha.seen_le
  unfold read
  simp only [hsize]
  refine safe_bindOk (readToEnd_safe ha hnum (reading_self ha)) ?_
  rintro ⟨words, offset⟩ t ⟨⟨k, hk, hwords, hoffset, hbefore⟩, ht⟩
  simp only at hwords hoffset hbefore ⊢
  have hlen : words.length = k := by
    rw [hwords, List.length_take, List.length_drop]
    omega
  rw [hlen]
  refine safe_bindOk (readToWriter_safe ha hnum hk hoffset hbefore ht) ?_
  rintro ⟨more, offset'⟩ u ⟨⟨hmore, hoffset'⟩, hu⟩
  simp only at hmore hoffset' ⊢
  have hlen' : more.length = num - k := by
    rw [hmore, List.length_take, List.length_drop]
    omega
  have hbuf : words ++ more = (s.written.drop a.consumed).take num := by
    have hsplit : num = k + (num - k) := by omega
    rw [hwords, hmore, ← List.drop_drop]
    conv => rhs; rw [hsplit, List.take_add]
  have hoff : ¬ offset' ≥ a.size := by
    have := Ring.slot_lt hv (a.consumed + num)
    omega
  rw [if_neg hoff]
  refine safe_done stable_reading hu fun v hv' => ⟨hv'.listening, ⟨?_, hbuf⟩, ?_, ?_⟩
  · simp only [hlen', Nat.add_sub_cancel' hk]
  · obtain ⟨_, _, _, _, _, _, _, _, _, hbwritten⟩ := hv'
    exact hbwritten
  · obtain ⟨b, hb, hbsize, hbstart, hbread, hbseen, hbpub, hbqs, hbreceived, hbwritten⟩ := hv'
    have hslot := slot_congr (a := a) hbsize hbstart
    refine ⟨b.take (a.consumed + num), ⟨⟨hb.valid.take (by omega) (by omega), hb.size,
      hbqs ▸ hb.hostSize, hb.slots, hb.written, ?_, hb.sharedRd, hb.sharedWr⟩, hb.slaveRd,
      hb.slaveWr, ?_, ?_⟩, hbstart, rfl, hbseen⟩
    · change v.received ++ (words ++ more) = v.written.take (a.consumed + num)
      obtain ⟨later, hlater⟩ := hbwritten
      rw [hbreceived, ha.received, hbuf, ← List.take_add, ← hlater,
        List.take_append_of_le_length (by omega)]
    · change offset' = b.slot (a.consumed + num)
      rw [hoffset', hslot]
    · change s.qs.wrOffset = b.slot b.seen
      rw [hbseen, hslot, ha.hostWr]

/-- What the slave has said about its position when the driver asks is what the driver knows
then. -/
theorem pullWrPtr_heard {start n m : Nat} (hs : Heard start n m s) :
    Safe (face .s2m) (Listening start) (pullWrPtr s.qs)
      (fun r u => ∃ qs m', r = .ok qs ∧ m ≤ m' ∧
        (s.shared.wrOffset = s.slave.wr → s.written.length ≤ m') ∧
        s.written <+: u.written ∧ Heard start n m' (u.after qs [])) s := by
  obtain ⟨a, ha, rfl, rfl, rfl⟩ := hs
  refine safe_ask stable_reading (reading_self ha) fun u hu => ⟨hu.listening, ?_⟩
  obtain ⟨b, hb, hsize, hstart, hread, hseen, hpub, hqs, hreceived, hwritten⟩ := hu
  have hoffset : u16 u.shared.wrOffset = a.slot b.published := by
    have hlt := Ring.slot_lt hb.valid b.published
    have := hb.size_lt
    rw [hb.sharedWr, u16_of_lt (by omega), slot_congr hsize hstart]
  have hmem : Reading (a.publish b.published) s u :=
    ⟨b, hb, hsize, hstart, hread, hseen, le_rfl, hqs, hreceived, hwritten⟩
  refine safe_done stable_reading hmem fun v hv =>
    ⟨hv.listening, _, b.published, rfl, ?_, fun hgiven => ?_, ?_, ?_⟩
  · exact Nat.le_trans ha.valid.seen_le hpub
  · have hroom := ha.valid.room
    have hpublished := ha.valid.published_le
    have hfreed := Nat.le_trans ha.valid.freed_le ha.valid.returned_le
    have hconsumed := Nat.le_trans ha.valid.consumed_le ha.valid.seen_le
    rw [ha.sharedWr, ha.slaveWr] at hgiven
    have heq := Ring.eq_of_slot_eq ha.valid hpublished (by omega) hgiven
    rw [← ha.written, ← heq]
    exact hpub
  · obtain ⟨_, _, _, _, _, _, _, _, _, hwritten'⟩ := hv
    exact hwritten'
  · obtain ⟨c, hc, hsize', hstart', hread', hseen', hpub', hqs', hreceived', hwritten'⟩ := hv
    refine ⟨c.see b.published, ⟨⟨hc.valid.see ?_ hpub', hc.size, hqs' ▸ hc.hostSize, hc.slots,
      hc.written, ?_, hc.sharedRd, hc.sharedWr⟩, hc.slaveRd, hc.slaveWr, ?_, ?_⟩, hstart', hread',
      rfl⟩
    · rw [hseen']
      exact Nat.le_trans ha.valid.seen_le hpub
    · change v.received ++ [] = v.written.take c.consumed
      rw [List.append_nil, hc.received]
    · exact hqs' ▸ hc.hostRd
    · exact hoffset.trans (slot_congr (b := a.publish b.published) hsize'.symm hstart'.symm _)

theorem pushRdPtr_heard {start n m : Nat} (hs : Heard start n m s) :
    Safe (face .s2m) (Listening start) (pushRdPtr s.qs)
      (fun r u => r = .ok () ∧ s.written <+: u.written ∧ Heard start n m (u.after s.qs [])) s := by
  obtain ⟨a, ha, rfl, rfl, rfl⟩ := hs
  refine safe_ask stable_reading (reading_self ha) fun u hu => ⟨hu.listening, ?_⟩
  have hset : Reading a s (serve u (.setRdOffset s.qs.rdOffset)).1 := by
    obtain ⟨b, hb, hsize, hstart, hread, hseen, hpub, hqs, hreceived, hwritten⟩ := hu
    refine ⟨b.release b.consumed, ⟨⟨hb.valid.release hb.valid.returned_le le_rfl, hb.size,
      hb.hostSize, hb.slots, hb.written, hb.received, ?_, hb.sharedWr⟩, hb.slaveRd, hb.slaveWr,
      hb.hostRd, hb.hostWr⟩, hsize, hstart, hread, hseen, hpub, hqs, hreceived, hwritten⟩
    exact hqs ▸ hb.hostRd
  refine safe_ask stable_reading hset fun v hv => ⟨hv.listening, ?_⟩
  refine safe_ask stable_reading hv fun w hw => ⟨hw.listening, ?_⟩
  refine safe_done stable_reading hw fun x hx => ⟨hx.listening, rfl, ?_⟩
  obtain ⟨c, hc, _, hstart, hread, hseen, _, hqs, _, hwritten⟩ := hx
  refine ⟨hwritten, c, ⟨⟨hc.valid, hc.size, hqs ▸ hc.hostSize, hc.slots, hc.written, ?_,
    hc.sharedRd, hc.sharedWr⟩, hc.slaveRd, hc.slaveWr, hqs ▸ hc.hostRd, hqs ▸ hc.hostWr⟩, hstart,
    hread, hseen⟩
  change x.received ++ [] = x.written.take c.consumed
  rw [List.append_nil, hc.received]

theorem Listening.heard {start : Nat} (h : Listening start s) : ∃ n m, Heard start n m s := by
  obtain ⟨a, ha, hstart⟩ := h
  exact ⟨_, _, a, ha, hstart, rfl, rfl⟩

/-- What a call sent plays no part at the reading end. -/
theorem Heard.finish {start n m : Nat} {call : Call} {r : Reply}
    (h : Heard start n m (s.after r.qs r.buf)) :
    Listening start ((client .s2m).finish s call r) := by
  obtain ⟨a, ha, hstart, _⟩ := h
  exact ⟨a, ⟨⟨ha.valid, ha.size, ha.hostSize, ha.slots, ha.written, ha.received, ha.sharedRd,
    ha.sharedWr⟩, ha.slaveRd, ha.slaveWr, ha.hostRd, ha.hostWr⟩, hstart⟩

theorem read_safe {start num : Nat} (hs : Listening start s) (hnum : num ≤ getNumWords s.qs) :
    Safe (face .s2m) (Listening start) (read s.qs num)
      (fun r u => (r.ret = .ok num ∧ r.buf.length = num) ∧
        Listening start ((client .s2m).finish u (.read num) r)) s := by
  obtain ⟨n, m, hs⟩ := hs.heard
  rw [hs.avail] at hnum
  refine (read_heard hs hnum).mono fun r u h => ?_
  obtain ⟨⟨hret, hbuf⟩, _, hu⟩ := h
  refine ⟨⟨hret, ?_⟩, hu.finish⟩
  have := hs.le
  rw [hbuf, List.length_take, List.length_drop]
  omega

theorem pullWrPtr_safe {start : Nat} (hs : Listening start s) :
    Safe (face .s2m) (Listening start) ((client .s2m).program s .pullWrPtr)
      (fun r u => Listening start ((client .s2m).finish u .pullWrPtr r)) s := by
  obtain ⟨n, m, hs⟩ := hs.heard
  refine (pullWrPtr_heard hs).bind_done fun r u h => ?_
  obtain ⟨qs, m', rfl, _, _, _, hu⟩ := h
  exact ⟨_, rfl, hu.finish⟩

theorem pushRdPtr_safe {start : Nat} (hs : Listening start s) :
    Safe (face .s2m) (Listening start) ((client .s2m).program s .pushRdPtr)
      (fun r u => Listening start ((client .s2m).finish u .pushRdPtr r)) s := by
  obtain ⟨n, m, hs⟩ := hs.heard
  refine (pushRdPtr_heard hs).bind_done fun r u h => ?_
  obtain ⟨rfl, _, hu⟩ := h
  exact ⟨_, rfl, hu.finish⟩

end MangOH.Mt7697q
