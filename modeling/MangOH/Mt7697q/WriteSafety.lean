import MangOH.Mt7697q.Ends

/-! The driver's writes, word by word, against a slave that reads meanwhile. -/
namespace MangOH.Mt7697q
open Interaction

variable {a : Ring Word} {s t : World}

/-- A call of `write` from `s` has written `part` so far, and said so up to `published`. -/
def Writing (a : Ring Word) (s : World) (published : Nat) (part : List Word) (t : World) : Prop :=
  ∃ b, Writer b t ∧ b.size = a.size ∧ b.start = a.start ∧ b.freed = a.freed ∧
    b.published = published ∧ a.returned ≤ b.returned ∧ t.qs = s.qs ∧ t.sent = s.sent ∧
    t.written = s.written ++ part

variable {published n : Nat} {part words buff : List Word} {Inv : World → Prop}

theorem stable_writing : (face .m2s).Stable (Writing a s published part) := by
  rintro t u ⟨b, hb, hsize, hstart, hfreed, hpub, hret, hqs, hsent, hwritten⟩ hstep
  obtain ⟨c, hc, hsize', hstart', hfreed', hpub', hret', hqs', hsent', hwritten'⟩ :=
    hb.consumes hstep
  exact ⟨c, hc, hsize'.trans hsize, hstart'.trans hstart, hfreed'.trans hfreed,
    hpub'.trans hpub, Nat.le_trans hret hret', hqs'.trans hqs, hsent'.trans hsent,
    hwritten'.trans hwritten⟩

/-- One word into the slot behind the last one. -/
theorem Writing.setWord {w : Word} (h : Writing a s published part t)
    (hroom : s.written.length + part.length + 1 < a.freed + a.size) :
    Writing a s published (part ++ [w])
      (serve t (.setWord (a.slot (s.written.length + part.length)) w)).1 := by
  obtain ⟨b, hb, hsize, hstart, hfreed, hpub, hret, hqs, hsent, hwritten⟩ := h
  have hlen : b.written.length = s.written.length + part.length := by
    rw [hb.written, hwritten, List.length_append]
  refine ⟨b.store w, ⟨⟨hb.valid.store (by omega), hb.size, hb.hostSize, ?_, ?_, ?_, hb.sharedRd,
    hb.sharedWr⟩, hb.hostRd, hb.slaveRd, hb.slaveWr⟩, hsize, hstart, hfreed, hpub, hret, hqs, hsent,
    ?_⟩
  · change Function.update b.slots (b.slot b.written.length) w = _
    rw [hb.slots, slot_congr hsize hstart, hlen]
    rfl
  · change b.written ++ [w] = t.written ++ [w]
    rw [hb.written]
  · change t.received = (t.written ++ [w]).take b.consumed
    rw [hb.received, List.take_append_of_le_length hb.consumed_le]
  · change t.written ++ [w] = _
    rw [hwritten, List.append_assoc]

/-- A transfer that does not run over the end of the ring. -/
theorem ioWr_safe {offset : Nat} (ha : a.Valid)
    (hroom : s.written.length + part.length + words.length + 1 ≤ a.freed + a.size)
    (hoffset : words ≠ [] → offset = a.slot (s.written.length + part.length))
    (hend : offset + words.length ≤ a.size)
    (hInv : ∀ more u, more <+: words → Writing a s published (part ++ more) u → Inv u)
    (ht : Writing a s published part t) :
    Safe (face .m2s) Inv (ioWr offset words)
      (fun r u => r = .ok () ∧ Writing a s published (part ++ words) u) t := by
  induction words generalizing offset part t with
  | nil =>
    refine safe_done stable_writing ht fun u hu => ⟨?_, rfl, by simpa using hu⟩
    exact hInv [] u (List.nil_prefix) (by simpa using hu)
  | cons w words ih =>
    have hslot := hoffset (by simp)
    simp only [List.length_cons] at hroom hend
    refine safe_ask stable_writing ht fun u hu => ⟨?_, ?_⟩
    · exact hInv [] u (List.nil_prefix) (by simpa using hu)
    · have hset := hu.setWord (w := w) (by omega)
      rw [← hslot] at hset
      have hrest := @ih _ (part ++ [w]) (offset + 1) (by simp; omega) ?_ (by omega)
        (fun more u hmore hu => hInv (w :: more) u (by simpa using hmore) (by simpa using hu)) hset
      · rwa [List.append_assoc] at hrest
      · intro hne
        have := List.length_pos_iff.mpr hne
        rw [List.length_append, List.length_singleton, ← Nat.add_assoc, Ring.slot_succ ha, ← hslot,
          if_neg (by omega)]

/-- What the arithmetic of a call that has room is about. -/
structure Room (a : Ring Word) (s : World) (buff : List Word) : Prop where
  writer : Writer a s
  hostWr : s.qs.wrOffset = a.slot s.written.length
  room : s.written.length + buff.length + 1 ≤ a.freed + a.size

theorem Room.distance (h : Room a s buff) : ∃ d, s.written.length = a.freed + d ∧
    d + buff.length < a.size ∧ s.qs.wrOffset =
      if s.qs.rdOffset + d < a.size then s.qs.rdOffset + d else s.qs.rdOffset + d - a.size := by
  have hv := h.writer.valid
  have hroom := h.room
  have hle := h.writer.freed_le
  obtain ⟨d, hd⟩ := Nat.exists_eq_add_of_le hle
  refine ⟨d, hd, by omega, ?_⟩
  rw [h.hostWr, h.writer.hostRd, hd, Ring.slot_add hv (by omega)]

theorem Room.rd_lt (h : Room a s buff) : s.qs.rdOffset < a.size :=
  h.writer.hostRd ▸ Ring.slot_lt h.writer.valid _

/-- The first transfer stays below the end, and leaves only words that fit before the reader. -/
theorem Room.beforeEnd (h : Room a s buff) (hge : s.qs.wrOffset ≥ s.qs.rdOffset) {k : Nat}
    (hk : k = wordsBeforeEnd a.size s.qs.rdOffset s.qs.wrOffset buff.length) :
    k ≤ buff.length ∧ s.qs.wrOffset + k ≤ a.size ∧
      (k < buff.length → s.qs.wrOffset + k = a.size ∧ buff.length - k < s.qs.rdOffset) := by
  have hsize := h.writer.size_lt
  have hrd := h.rd_lt
  obtain ⟨d, hd, hroom, hwr⟩ := h.distance
  have hwrap : s.qs.rdOffset + d < a.size := by split at hwr <;> omega
  rw [if_pos hwrap] at hwr
  by_cases hzero : s.qs.rdOffset = 0
  · simp (disch := omega) only [wordsBeforeEnd, hzero, if_true, sub32_of_le] at hk
    split at hk <;> omega
  · simp (disch := omega) only [wordsBeforeEnd, if_neg hzero, sub32_of_le] at hk
    split at hk <;> omega

theorem writeToEnd_safe (h : Room a s buff)
    (hInv : ∀ part u, part <+: buff → Writing a s published part u → Inv u)
    (ht : Writing a s published [] t) :
    Safe (face .m2s) Inv (writeToEnd a.size s.qs.rdOffset s.qs.wrOffset buff)
      (fun r u => ∃ v, r = .ok v ∧ (v.1 ≤ buff.length ∧ v.2 = a.slot (s.written.length + v.1) ∧
        (v.1 < buff.length → v.2 < s.qs.rdOffset ∧ buff.length - v.1 < s.qs.rdOffset - v.2)) ∧
        Writing a s published (buff.take v.1) u) t := by
  have hv := h.writer.valid
  have hwriter := h.writer.toHolds
  have hroom := h.room
  unfold writeToEnd
  split
  case isTrue hge =>
    obtain ⟨hk, hend, hrest⟩ := h.beforeEnd hge rfl
    simp only
    generalize wordsBeforeEnd a.size s.qs.rdOffset s.qs.wrOffset buff.length = k at *
    have hlen : (buff.take k).length = k := by rw [List.length_take, Nat.min_eq_left hk]
    have hwrap := wrap_slot hwriter (h.hostWr ▸ hend)
    rw [← h.hostWr] at hwrap
    refine Safe.bind (ioWr_safe hv (by simp; omega) (fun _ => by simpa using h.hostWr) (by omega)
      (fun more u hmore hu => hInv more u (hmore.trans (List.take_prefix _ _)) hu) ht) ?_
    rintro r u ⟨rfl, hu⟩
    refine safe_done stable_writing hu fun x hx => ⟨hInv _ _ (List.take_prefix _ _) hx, _, rfl,
      ⟨hk, hwrap, fun hlt => ?_⟩, hx⟩
    obtain ⟨hfull, hbefore⟩ := hrest hlt
    have hslot : a.slot (s.written.length + k) = 0 := by
      rw [Ring.slot_add hv (by omega), ← h.hostWr, if_neg (by omega)]
      omega
    simp only [hwrap, hslot]
    omega
  case isFalse hlt =>
    have hrd := h.rd_lt
    obtain ⟨d, hd, hlen, hwr⟩ := h.distance
    have hwrapped : ¬ s.qs.rdOffset + d < a.size := by split at hwr <;> omega
    rw [if_neg hwrapped] at hwr
    refine safe_done stable_writing ht fun x hx => ⟨hInv _ _ (List.nil_prefix) hx, _, rfl,
      ⟨Nat.zero_le _, h.hostWr, fun _ => ?_⟩, by simpa using hx⟩
    simp only
    omega

theorem writeToReader_safe {writeOffset : Nat} (h : Room a s buff)
    (hroom : s.written.length + part.length + words.length + 1 ≤ a.freed + a.size)
    (hoffset : writeOffset = a.slot (s.written.length + part.length))
    (hbefore : words ≠ [] → writeOffset < s.qs.rdOffset ∧
      words.length < s.qs.rdOffset - writeOffset)
    (hInv : ∀ more u, more <+: words → Writing a s published (part ++ more) u → Inv u)
    (ht : Writing a s published part t) :
    Safe (face .m2s) Inv (writeToReader s.qs.rdOffset writeOffset words)
      (fun r u => ∃ v, r = .ok v ∧ (v.1 = words.length ∧
        v.2 = a.slot (s.written.length + part.length + words.length)) ∧
        Writing a s published (part ++ words) u) t := by
  have hv := h.writer.valid
  have hwriter := h.writer.toHolds
  have hsize := hwriter.size_lt
  have hrd := h.rd_lt
  unfold writeToReader
  split
  case isTrue hlt =>
    obtain ⟨hlt, hpos⟩ := hlt
    have hfit := (hbefore (List.length_pos_iff.mp hpos)).2
    have hk : wordsBeforeReader s.qs.rdOffset writeOffset words.length = words.length := by
      simp (disch := omega) only [wordsBeforeReader, sub32_of_le]
      exact if_pos (by omega)
    simp only [hk, List.take_length]
    refine Safe.bind (ioWr_safe hv hroom (fun _ => hoffset) (by omega) hInv ht) ?_
    rintro r u ⟨rfl, hu⟩
    refine safe_done stable_writing hu fun x hx => ⟨hInv _ _ List.prefix_rfl hx, _, rfl,
      ⟨rfl, ?_⟩, hx⟩
    rw [u16_of_lt (by omega), Ring.slot_add hv (by omega), ← hoffset, if_pos (by omega)]
  case isFalse hnot =>
    have hnil : words = [] := by
      by_contra hne
      exact hnot ⟨(hbefore hne).1, List.length_pos_iff.mpr hne⟩
    subst hnil
    refine safe_done stable_writing ht fun x hx => ⟨hInv [] _ List.nil_prefix (by simpa using hx),
      _, rfl, ⟨rfl, hoffset⟩, by simpa using hx⟩

/-- The slave has been told how far the call has written. -/
theorem Writing.setWrOffset (h : Writing a s published part t) (hle : published ≤ n)
    (hn : n = s.written.length + part.length) :
    Writing a s n part (serve t (.setWrOffset (a.slot n))).1 := by
  obtain ⟨b, hb, hsize, hstart, hfreed, hpub, hret, hqs, hsent, hwritten⟩ := h
  have hlen : b.written.length = n := by
    rw [hb.written, hwritten, List.length_append, hn]
  refine ⟨b.publish n, ⟨⟨hb.valid.publish (hpub ▸ hle) hlen.ge, hb.size, hb.hostSize, hb.slots,
    hb.written, hb.received, hb.sharedRd, ?_⟩, hb.hostRd, hb.slaveRd, hb.slaveWr⟩, hsize, hstart,
    hfreed, rfl, hret, hqs, hsent, hwritten⟩
  exact (slot_congr hsize hstart n).symm

theorem notifySlave_safe (hInv : ∀ u, Writing a s published part u → Inv u)
    (ht : Writing a s published part t) :
    Safe (face .m2s) Inv notifySlave (fun r u => r = .ok () ∧ Writing a s published part u) t := by
  refine safe_ask stable_writing ht fun u hu => ⟨hInv u hu, ?_⟩
  refine safe_ask stable_writing hu fun v hv => ⟨hInv v hv, ?_⟩
  exact safe_done stable_writing hv fun w hw => ⟨hInv w hw, rfl, hw⟩

theorem pushWrPtr_safe {qs : QueueData} (hle : published ≤ n)
    (hn : n = s.written.length + part.length) (hqs : qs.wrOffset = a.slot n)
    (hInv : ∀ m u, Writing a s m part u → Inv u) (ht : Writing a s published part t) :
    Safe (face .m2s) Inv (pushWrPtr qs) (fun r u => r = .ok () ∧ Writing a s n part u) t := by
  refine safe_ask stable_writing ht fun u hu => ⟨hInv _ u hu, ?_⟩
  rw [hqs]
  exact notifySlave_safe (fun v hv => hInv _ v hv) (hu.setWrOffset hle hn)

/-- Between two calls the driver has told the slave all that it wrote. -/
def Settled (start : Nat) (s : World) : Prop :=
  ∃ a, Writer a s ∧ a.start = start ∧ s.qs.wrOffset = a.slot a.published ∧
    a.published = a.written.length ∧ s.sent = s.written

/-- The ring behind such a queue. -/
structure SettledAs (a : Ring Word) (s : World) : Prop extends Writer a s where
  hostWr : s.qs.wrOffset = a.slot a.published
  told : a.published = a.written.length
  sent : s.sent = s.written

theorem SettledAs.settled (h : SettledAs a s) : Settled a.start s :=
  ⟨a, h.toWriter, rfl, h.hostWr, h.told, h.sent⟩

/-- During a call of `write` a part of its words is in the queue. -/
def Unsettled (start : Nat) (buff : List Word) (s : World) : Prop :=
  ∃ a, Writer a s ∧ a.start = start ∧ s.qs.wrOffset = a.slot s.sent.length ∧
    a.freed ≤ s.sent.length ∧ ∃ part, part <+: buff ∧ s.written = s.sent ++ part

theorem Writing.unsettled (hwr : s.qs.wrOffset = a.slot s.written.length)
    (hsent : s.sent = s.written) (hfreed : a.freed ≤ s.written.length) (hpart : part <+: buff)
    (h : Writing a s published part t) : Unsettled a.start buff t := by
  obtain ⟨b, hb, hsize, hstart, hfreed', _, _, hqs, hsent', hwritten⟩ := h
  refine ⟨b, hb, hstart, ?_, ?_, part, hpart, ?_⟩
  · rw [hqs, hwr, hsent', hsent, slot_congr hsize hstart]
  · rw [hfreed', hsent', hsent]
    exact hfreed
  · rw [hwritten, hsent', hsent]

theorem writing_self (ha : Writer a s) : Writing a s a.published [] s :=
  ⟨a, ha, rfl, rfl, rfl, rfl, le_rfl, rfl, rfl, by simp⟩

theorem writeWords_safe (h : Room a s buff) (hpub : a.published = s.written.length)
    (hsent : s.sent = s.written) :
    Safe (face .m2s) (Unsettled a.start buff) (writeWords s.qs buff)
      (fun r u => r.ret = .ok buff.length ∧
        ∃ b, SettledAs b ((client .m2s).finish u (.write buff) r) ∧ b.size = a.size ∧
          b.start = a.start ∧ b.freed = a.freed ∧ u.written = s.written ++ buff) s := by
  have hv := h.writer.valid
  have hsize : numWords s.qs.flags = a.size := by rw [h.writer.hostSize, h.writer.size]
  have hroom := h.room
  have hInv : ∀ part m u, part <+: buff → Writing a s m part u → Unsettled a.start buff u :=
    fun part m u hpart hu => hu.unsettled h.hostWr hsent h.writer.freed_le hpart
  unfold writeWords
  simp only [hsize]
  refine safe_bindOk (writeToEnd_safe h (fun part u => hInv part _ u) (writing_self h.writer)) ?_
  rintro ⟨k, offset⟩ t ⟨⟨hk, hoffset, hrest⟩, ht⟩
  simp only at hk hoffset hrest ht ⊢
  have htake : (buff.take k).length = k := by rw [List.length_take, Nat.min_eq_left hk]
  have hdrop : (buff.drop k).length = buff.length - k := List.length_drop
  refine safe_bindOk (writeToReader_safe h (by omega) (by rw [htake]; exact hoffset) ?_ ?_ ht) ?_
  · intro hne
    have := List.length_pos_iff.mpr hne
    have := hrest (by omega)
    omega
  · intro more u hmore hu
    refine hInv _ _ u ?_ hu
    conv => rhs; rw [← List.take_append_drop k buff]
    exact (List.prefix_append_right_inj _).mpr hmore
  rintro ⟨more, offset'⟩ u ⟨⟨hmore, hoffset'⟩, hu⟩
  simp only at hmore hoffset'
  rw [List.take_append_drop] at hu
  have hlen : s.written.length + (buff.take k).length + (buff.drop k).length =
      s.written.length + buff.length := by omega
  rw [hlen] at hoffset'
  have hlt : ¬ offset' ≥ a.size := by
    have := Ring.slot_lt hv (s.written.length + buff.length)
    omega
  simp only [if_neg hlt]
  refine Safe.bind (pushWrPtr_safe (n := s.written.length + buff.length) (by omega) rfl hoffset'
    (fun m v => hInv buff m v List.prefix_rfl) hu) ?_
  rintro r v ⟨rfl, hv'⟩
  refine safe_done stable_writing hv' fun w hw => ⟨hInv _ _ _ List.prefix_rfl hw, ?_, ?_⟩
  · simp only [hmore, hdrop, Nat.add_sub_cancel' hk]
  · obtain ⟨b, hb, hbsize, hbstart, hbfreed, hbpub, _, hbqs, hbsent, hbwritten⟩ := hw
    have hblen : b.written.length = s.written.length + buff.length := by
      rw [hb.written, hbwritten, List.length_append]
    refine ⟨b, ⟨⟨⟨hb.valid, hb.size, hbqs ▸ hb.hostSize, hb.slots, hb.written, ?_, hb.sharedRd,
      hb.sharedWr⟩, ?_, hb.slaveRd, hb.slaveWr⟩, ?_, hbpub.trans hblen.symm, ?_⟩, hbsize, hbstart,
      hbfreed, hbwritten⟩
    · change w.received ++ [] = w.written.take b.consumed
      rw [List.append_nil, hb.received]
    · change s.qs.rdOffset = b.slot b.freed
      rw [h.writer.hostRd, hbfreed, slot_congr hbsize hbstart]
    · change offset' = b.slot b.published
      rw [hoffset', hbpub, slot_congr hbsize hbstart]
    · change w.sent ++ buff.take (k + more) = w.written
      rw [hmore, hdrop, Nat.add_sub_cancel' hk, List.take_length, hbsent, hsent, hbwritten]

/-- The driver learns how far the slave said it had read. -/
theorem pullRdPtr_safe (hInv : ∀ u, Writing a s published [] u → Inv u)
    (ht : Writing a s published [] t) :
    Safe (face .m2s) Inv (pullRdPtr s.qs)
      (fun r u => ∃ v, r = .ok v ∧ ∃ m, v = { s.qs with rdOffset := a.slot m } ∧ a.freed ≤ m ∧
        Writing (a.release m) s published [] u) t := by
  refine safe_ask stable_writing ht fun u hu => ⟨hInv u hu, ?_⟩
  obtain ⟨b, hb, hsize, hstart, hfreed, hpub, hret, hqs, hsent, hwritten⟩ := hu
  have hmem : Writing (a.release b.returned) s published [] u :=
    ⟨b, hb, hsize, hstart, hfreed, hpub, le_rfl, hqs, hsent, hwritten⟩
  refine safe_done stable_writing hmem fun v hv => ⟨?_, _, rfl, b.returned, ?_, ?_, hv⟩
  · obtain ⟨c, hc, hsize', hstart', hfreed', hpub', hret', hrest⟩ := hv
    exact hInv v ⟨c, hc, hsize', hstart', hfreed', hpub', Nat.le_trans hret hret', hrest⟩
  · have hlt := Ring.slot_lt hb.valid b.returned
    have := hb.size_lt
    rw [hb.sharedRd, u16_of_lt (by omega), slot_congr hsize hstart]
  · rw [← hfreed]
    exact hb.valid.freed_le

/-- The free words that the host counts where its write offset covers what it wrote. -/
theorem Writer.freeWords (h : Writer a s) (hwr : s.qs.wrOffset = a.slot s.written.length) :
    getFreeWords s.qs = a.size - 1 - (s.written.length - a.freed) := by
  have hlen : a.written.length = s.written.length := by rw [h.written]
  have hsize := h.size_lt
  have hroom := h.valid.room
  have hpos := h.valid.start_lt
  have hnum : getNumWords s.qs = s.written.length - a.freed := by
    rw [getNumWords, h.hostRd, hwr]
    exact h.diff_slot h.freed_le (by omega)
  have hcap : getCapacity s.qs = a.size - 1 := by
    rw [getCapacity, h.hostSize, ← h.size]
    exact sub32_of_le (by omega) (by omega)
  rw [getFreeWords, hnum, hcap, sub32_of_le (by omega) (by omega)]

theorem SettledAs.freeWords (h : SettledAs a s) :
    getFreeWords s.qs = a.size - 1 - (s.written.length - a.freed) :=
  h.toWriter.freeWords (by rw [h.hostWr, h.told, h.written])

/-- A call that finds room by the host's own count writes all its words. -/
theorem SettledAs.write_safe (h : SettledAs a s) (hbuff : buff.length ≤ getFreeWords s.qs) :
    Safe (face .m2s) (Unsettled a.start buff) (write s.qs buff)
      (fun r u => r.ret = .ok buff.length ∧
        ∃ b, SettledAs b ((client .m2s).finish u (.write buff) r) ∧ b.size = a.size ∧
          b.start = a.start ∧ b.freed = a.freed ∧ u.written = s.written ++ buff) s := by
  have hlen : a.written.length = s.written.length := by rw [h.written]
  have hwr : s.qs.wrOffset = a.slot s.written.length := by rw [h.hostWr, h.told, hlen]
  have hle := h.freed_le
  have hroom := h.valid.room
  rw [h.freeWords] at hbuff
  unfold write
  simp only [h.freeWords]
  rw [if_neg (by omega)]
  exact writeWords_safe ⟨h.toWriter, hwr, by omega⟩ (h.told.trans hlen) h.sent

/-- Every call of `write` writes and tells all its words, or none for want of room. -/
theorem write_safe {start : Nat} (hs : Settled start s) :
    Safe (face .m2s) (Unsettled start buff) (write s.qs buff)
      (fun r u => (r.ret = .ok buff.length ∨ r.ret = .error .again) ∧
        Settled start ((client .m2s).finish u (.write buff) r)) s := by
  obtain ⟨a, ha, rfl, hwr, hpub, hsent⟩ := hs
  have hlen : a.written.length = s.written.length := by rw [ha.written]
  have hle := ha.freed_le
  have hwr' : s.qs.wrOffset = a.slot s.written.length := by rw [hwr, hpub, hlen]
  by_cases hroom : buff.length ≤ getFreeWords s.qs
  · refine (SettledAs.write_safe ⟨ha, hwr, hpub, hsent⟩ hroom).mono fun r u hr => ?_
    obtain ⟨hret, b, hb, -, hstart, -⟩ := hr
    exact ⟨.inl hret, hstart ▸ hb.settled⟩
  unfold write
  simp only
  rw [if_pos (by omega)]
  refine safe_bindOk (pullRdPtr_safe (fun u hu => hu.unsettled hwr' hsent hle List.nil_prefix)
    (writing_self ha)) ?_
  rintro _ u ⟨m, rfl, hm, hu⟩
  simp only
  rw [if_pos (by omega)]
  refine safe_done stable_writing hu fun v hv => ⟨?_, .inr rfl, ?_⟩
  · exact hv.unsettled (a := a.release m) hwr' hsent hle List.nil_prefix
  · obtain ⟨b, hb, hbsize, hbstart, hbfreed, hbpub, hbret, hbqs, hbsent, hbwritten⟩ := hv
    have hslot := slot_congr (a := a) hbsize hbstart
    rw [List.append_nil] at hbwritten
    refine ⟨b.learn m, ⟨⟨hb.valid.learn (hbfreed.trans_le hm) hbret, hb.size, hbqs ▸ hb.hostSize,
      hb.slots, hb.written, ?_, hb.sharedRd, hb.sharedWr⟩, (hslot m).symm, hb.slaveRd,
      hb.slaveWr⟩, hbstart, ?_, ?_, ?_⟩
    · change v.received ++ [] = v.written.take b.consumed
      rw [List.append_nil, hb.received]
    · change s.qs.wrOffset = b.slot b.published
      rw [hbpub, hslot, hwr]
    · change b.published = b.written.length
      rw [hbpub, hpub, hb.written, hbwritten, hlen]
    · change v.sent ++ [] = v.written
      rw [List.append_nil, hbsent, hsent, hbwritten]

end MangOH.Mt7697q
