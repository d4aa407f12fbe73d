import MangOH.Mt7697q.Transfers

/-! The driver's functions over the bus do to their queue what they do by single requests. -/
namespace MangOH.Mt7697q
open Interaction Mt7697io

variable {ι : Type} {m : MemoryMap ι} {polls num : Nat} {i : ι} {t u : Board ι}
  {s v : ι → World} {α β : Type} {qs : QueueData} {buff : List Word} {addr : UInt32} {w : Word}

/-- The host's copy of the control words is one of this queue. -/
structure MemoryMap.Fits (m : MemoryMap ι) (i : ι) (qs : QueueData) : Prop where
  baseAddr : qs.baseAddr = m.baseAddr i
  size : numWords qs.flags = m.size i
  rd_lt : qs.rdOffset < m.size i
  wr_lt : qs.wrOffset < m.size i

theorem MemoryMap.size_lt (m : MemoryMap ι) (i : ι) : m.size i < 2 ^ 16 := numWords_lt _

theorem u16_ofNat {n : Nat} (hn : n < 2 ^ 16) : u16 (UInt32.ofNat n).toNat = n := by
  rw [UInt32.toNat_ofNat', u16]
  omega

theorem u16_u16 (n : Nat) : u16 (u16 n) = u16 n := Nat.mod_mod n _

variable [DecidableEq ι]

/-! ### Control words -/

section ControlWords

variable {o : Request} {next : Answer o → Program Request Answer α} {P : Answer o → Word → Prop}
  {Q : Option (Except Errno β) → α → Board ι → (ι → World) → Prop}

/-- A transfer of one word stands for the request that its access makes. -/
theorem wr_word_refines {f : Unit → Bus β} (h : t.Matches m polls s) (hready : t.regs.Ready)
    (hperform : Performs m polls i .write o P addr w)
    (hf : ∀ x u v, u.Matches m polls v → u.regs.Ready → P x u.regs.readData →
      BusRefines m polls i (f ()) (next x) Q u v) :
    BusRefines m polls i ((wr polls addr [w]).andThen f) (.ask o next) Q t s := by
  have hwr : (wr polls addr [w]).andThen f = (write32 slaveRegBusAddrLow addr).andThen fun _ =>
      (write32 slaveRegWriteDataLow w).andThen fun _ =>
      (write16 slaveRegCommand (command Rw.write.val)).andThen fun _ =>
      (slaveWait polls).andThen f := by
    simp only [wr, wrWords, Bus.andThen_assoc]
    rfl
  rw [hwr]
  refine BusSilent.andThen_refines (write32_busAddr_silent h hready.2 addr) fun _ u v hR hu => ?_
  have hready' : u.regs.Ready := hu ▸ hready
  refine BusSilent.andThen_refines (write32_writeData_silent hR hready'.2 w) fun _ x y hy hx => ?_
  have hperform' : Performs m polls i .write o P x.regs.busAddr x.regs.writeData := by
    rw [hx, hu]
    exact hperform
  exact refines_access hy (hx ▸ hready') hperform' fun x u v hR hready _ hP => hf x u v hR hready hP

theorem rd_word_refines {f : List Word → Bus β} (h : t.Matches m polls s) (hready : t.regs.Ready)
    (hperform : Performs m polls i .read o P addr t.regs.writeData)
    (hf : ∀ x d u v, u.Matches m polls v → u.regs.Ready → P x d →
      BusRefines m polls i (f [d]) (next x) Q u v) :
    BusRefines m polls i ((rd polls addr 1).andThen f) (.ask o next) Q t s := by
  have hrd : (rd polls addr 1).andThen f = (write32 slaveRegBusAddrLow addr).andThen fun _ =>
      (write16 slaveRegCommand (command Rw.read.val)).andThen fun _ =>
      (slaveWait polls).andThen fun _ => (read32 slaveRegReadDataLow).andThen fun w => f [w] := by
    simp only [rd, rdWords, Bus.andThen_assoc]
    rfl
  rw [hrd]
  refine BusSilent.andThen_refines (write32_busAddr_silent h hready.2 addr) fun _ u v hR hu => ?_
  have hready' : u.regs.Ready := hu ▸ hready
  have hperform' : Performs m polls i .read o P u.regs.busAddr u.regs.writeData := by
    rw [hu]
    exact hperform
  refine refines_access hR hready' hperform' fun x y z hz hy _ hP => ?_
  refine BusSilent.andThen_refines (read32_silent hz hy.2) fun d u v hR hu => ?_
  obtain ⟨rfl, hu⟩ := hu
  exact hf x _ u v hR (hu ▸ hy) hP

/-- A register of the slave's own is written, and no queue changes. -/
theorem write16_refines {f : Unit → Bus β} {reg : UInt8} {value : UInt16} {x : Answer o}
    (h : t.Matches m polls s) (hready : t.regs.Ready)
    (hwrite : ∀ u : Board ι, u.write m reg value = u) (ho : ∀ s : World, serve s o = (s, x))
    (hf : ∀ u v, u.Matches m polls v → u.regs.Ready → BusRefines m polls i (f ()) (next x) Q u v) :
    BusRefines m polls i ((write16 reg value).andThen f) (.ask o next) Q t s := by
  refine refines_ask h fun u v huv => ?_
  have hready' : u.regs.Ready := regs_of_later huv ▸ hready
  have hserve : (busFace m polls).serve u
      (.write ⟨cmdWrite, reg, highByte value, lowByte value⟩) = (u, .ok ()) := by
    change ((u.touch reg).write m reg (ofBytes (highByte value) (lowByte value)), _) = _
    rw [ofBytes_bytes, touch_of_ready hready'.2, hwrite u]
  rw [hserve, face_serve, ho, Function.update_eq_self]
  exact hf u v huv.related hready'

end ControlWords

theorem notifySlave_refines (h : t.Matches m polls s) (hready : t.regs.Ready) :
    BusRefines m polls i (OnBus.notifySlave (m.ch i)) notifySlave (Same fun _ => True) t s := by
  refine write16_refines h hready (fun _ => rfl) (fun _ => rfl) fun u v hR hready' => ?_
  rw [← Bus.andThen_ok triggerIntr]
  exact write16_refines hR hready' (fun _ => rfl) (fun _ => rfl) fun x y hy hready'' =>
    same_done hy hready'' trivial

theorem pullRdPtr_refines (h : t.Matches m polls s) (hready : t.regs.Ready) :
    BusRefines m polls i (OnBus.pullRdPtr polls (m.ch i) qs) (pullRdPtr qs)
      (Same fun qs' => qs'.baseAddr = qs.baseAddr) t s := by
  refine rd_word_refines h hready performs_rdOffset fun x d u v hR hready' hx => ?_
  subst hx
  have hdone : BusRefines m polls i (Bus.ok { qs with rdOffset := u16 d.toNat })
      (.done (.ok { qs with rdOffset := u16 (u16 d.toNat) }))
      (Same fun qs' => qs'.baseAddr = qs.baseAddr) u v := by
    rw [u16_u16]
    exact same_done hR hready' rfl
  exact hdone

theorem pullWrPtr_refines (h : t.Matches m polls s) (hready : t.regs.Ready) :
    BusRefines m polls i (OnBus.pullWrPtr polls (m.ch i) qs) (pullWrPtr qs)
      (Same fun qs' => qs'.baseAddr = qs.baseAddr) t s := by
  refine rd_word_refines h hready performs_wrOffset fun x d u v hR hready' hx => ?_
  subst hx
  have hdone : BusRefines m polls i (Bus.ok { qs with wrOffset := u16 d.toNat })
      (.done (.ok { qs with wrOffset := u16 (u16 d.toNat) }))
      (Same fun qs' => qs'.baseAddr = qs.baseAddr) u v := by
    rw [u16_u16]
    exact same_done hR hready' rfl
  exact hdone

theorem pushRdPtr_refines (h : t.Matches m polls s) (hready : t.regs.Ready)
    (hrd : qs.rdOffset < 2 ^ 16) :
    BusRefines m polls i (OnBus.pushRdPtr polls (m.ch i) qs) (pushRdPtr qs) (Same fun _ => True)
      t s := by
  have hperform : Performs m polls i .write (.setRdOffset qs.rdOffset) (fun x _ => x = .ok ())
      (m.rdAddr i) (UInt32.ofNat qs.rdOffset) := by
    have := @performs_setRdOffset ι m polls i _ (UInt32.ofNat qs.rdOffset)
    rwa [u16_ofNat hrd] at this
  refine wr_word_refines h hready hperform fun x u v hR hready' hx => ?_
  subst hx
  exact notifySlave_refines hR hready'

theorem pushWrPtr_refines (h : t.Matches m polls s) (hready : t.regs.Ready)
    (hwr : qs.wrOffset < 2 ^ 16) :
    BusRefines m polls i (OnBus.pushWrPtr polls (m.ch i) qs) (pushWrPtr qs) (Same fun _ => True)
      t s := by
  have hperform : Performs m polls i .write (.setWrOffset qs.wrOffset) (fun x _ => x = .ok ())
      (m.wrAddr i) (UInt32.ofNat qs.wrOffset) := by
    have := @performs_setWrOffset ι m polls i _ (UInt32.ofNat qs.wrOffset)
    rwa [u16_ofNat hwr] at this
  refine wr_word_refines h hready hperform fun x u v hR hready' hx => ?_
  subst hx
  exact notifySlave_refines hR hready'

/-! ### Writes -/

/-- Both return this reply, and the slave is ready for a command. -/
def SameReply (m : MemoryMap ι) (i : ι) (r : Option Reply) (reply : Reply) (u : Board ι)
    (_ : ι → World) : Prop :=
  r = some reply ∧ reply.qs.baseAddr = m.baseAddr i ∧ u.regs.Ready

theorem sameReply_done {reply : Reply} (h : t.Matches m polls s) (hready : t.regs.Ready)
    (hbase : reply.qs.baseAddr = m.baseAddr i) :
    BusRefines m polls i (.done (some reply)) (.done reply) (SameReply m i) t s :=
  refines_done h fun _ _ huv => ⟨rfl, hbase, regs_of_later huv ▸ hready⟩

theorem writeToEnd_refines (h : t.Matches m polls s) (hready : t.regs.Ready) (hqs : m.Fits i qs) :
    BusRefines m polls i (OnBus.writeToEnd polls qs buff)
      (writeToEnd (numWords qs.flags) qs.rdOffset qs.wrOffset buff) (Same fun _ => True) t s := by
  unfold OnBus.writeToEnd writeToEnd
  split
  · have hend : qs.wrOffset + (buff.take (wordsBeforeEnd (numWords qs.flags) qs.rdOffset
        qs.wrOffset buff.length)).length ≤ m.size i := by
      have hsize := m.size_lt i
      have hwr := hqs.wr_lt
      rw [List.length_take, hqs.size]
      unfold wordsBeforeEnd
      simp (disch := omega) only [sub32_of_le]
      split_ifs <;> omega
    rw [hqs.baseAddr]
    exact BusRefines.andThen (wr_refines h hready hend) fun _ u v hR hready' _ =>
      same_done hR hready' trivial
  · exact same_done h hready trivial

theorem writeToReader_refines {writeOffset : Nat} (h : t.Matches m polls s)
    (hready : t.regs.Ready) (hqs : m.Fits i qs) :
    BusRefines m polls i (OnBus.writeToReader polls qs writeOffset buff)
      (writeToReader qs.rdOffset writeOffset buff) (Same fun _ => True) t s := by
  unfold OnBus.writeToReader writeToReader
  split
  · next hbefore =>
    have hend : writeOffset + (buff.take (wordsBeforeReader qs.rdOffset writeOffset
        buff.length)).length ≤ m.size i := by
      have hsize := m.size_lt i
      have hrd := hqs.rd_lt
      rw [List.length_take]
      unfold wordsBeforeReader
      simp (disch := omega) only [sub32_of_le]
      split_ifs <;> omega
    rw [hqs.baseAddr]
    exact BusRefines.andThen (wr_refines h hready hend) fun _ u v hR hready' _ =>
      same_done hR hready' trivial
  · exact same_done h hready trivial

theorem writeWords_refines (h : t.Matches m polls s) (hready : t.regs.Ready)
    (hqs : m.Fits i qs) :
    BusRefines m polls i (OnBus.writeWords polls (m.ch i) qs buff) (writeWords qs buff)
      (SameReply m i) t s := by
  refine BusRefines.returned (writeToEnd_refines h hready hqs) fun a u v hR hready' _ => ?_
  obtain ⟨written, writeOffset⟩ := a
  refine BusRefines.returned (writeToReader_refines hR hready' hqs) fun b x y hy hready'' _ => ?_
  obtain ⟨more, writeOffset'⟩ := b
  dsimp only
  split
  · exact sameReply_done hy hready'' hqs.baseAddr
  · next hlt =>
    have hwr : writeOffset' < 2 ^ 16 := by
      have := m.size_lt i
      rw [hqs.size] at hlt
      omega
    refine BusRefines.returned (pushWrPtr_refines hy hready'' hwr) fun _ z w hw hready₃ _ => ?_
    exact sameReply_done hw hready₃ hqs.baseAddr

theorem write_refines (h : t.Matches m polls s) (hready : t.regs.Ready) (hqs : m.Fits i qs) :
    BusRefines m polls i (OnBus.write polls (m.ch i) qs buff) (write qs buff) (SameReply m i)
      t s := by
  unfold OnBus.write write
  dsimp only
  split
  · refine BusRefines.returned (pullRdPtr_refines h hready) fun qs' u v hR hready' hbase => ?_
    dsimp only
    exact sameReply_done hR hready' (hbase.trans hqs.baseAddr)
  · exact writeWords_refines h hready hqs

/-! ### Reads -/

theorem readToEnd_refines (h : t.Matches m polls s) (hready : t.regs.Ready) (hqs : m.Fits i qs) :
    BusRefines m polls i (OnBus.readToEnd polls qs num)
      (readToEnd (numWords qs.flags) qs.rdOffset qs.wrOffset num)
      (Same fun a => a.1.length < num → a.2 ≤ qs.wrOffset) t s := by
  have hsize := m.size_lt i
  have hrd := hqs.rd_lt
  unfold OnBus.readToEnd readToEnd
  split
  · dsimp only
    rw [hqs.size, hqs.baseAddr, sub32_of_le (by omega) (by omega)]
    generalize hk : (if num ≤ m.size i - qs.rdOffset then num else m.size i - qs.rdOffset) = k
    have hend : qs.rdOffset + k ≤ m.size i := by split at hk <;> omega
    refine BusRefines.andThen (rd_refines h hready hend) fun words u v hR hready' hlen => ?_
    refine same_done hR hready' fun (hmore : words.length < num) => ?_
    have hfull : qs.rdOffset + k = m.size i := by split at hk <;> omega
    rw [u16_of_lt (by omega), wrap, if_pos hfull]
    exact Nat.zero_le _
  · exact same_done h hready fun _ => by omega

theorem readToWriter_refines {readOffset rdWords : Nat} (h : t.Matches m polls s)
    (hready : t.regs.Ready) (hqs : m.Fits i qs)
    (hbefore : rdWords < num → readOffset ≤ qs.wrOffset) :
    BusRefines m polls i (OnBus.readToWriter polls qs readOffset rdWords num)
      (readToWriter readOffset qs.wrOffset rdWords num) (Same fun _ => True) t s := by
  have hsize := m.size_lt i
  have hwr := hqs.wr_lt
  unfold OnBus.readToWriter readToWriter
  split
  · next hmore =>
    have hle := hbefore hmore
    dsimp only
    rw [hqs.baseAddr, sub32_of_le hle (by omega)]
    generalize hk : (if sub32 num rdWords ≤ qs.wrOffset - readOffset then sub32 num rdWords
      else qs.wrOffset - readOffset) = k
    have hend : readOffset + k ≤ m.size i := by split at hk <;> omega
    exact BusRefines.andThen (rd_refines h hready hend) fun words u v hR hready' _ =>
      same_done hR hready' trivial
  · exact same_done h hready trivial

theorem read_refines (h : t.Matches m polls s) (hready : t.regs.Ready) (hqs : m.Fits i qs) :
    BusRefines m polls i (OnBus.read polls qs num) (read qs num) (SameReply m i) t s := by
  refine BusRefines.returned (readToEnd_refines h hready hqs) fun a u v hR hready' hbefore => ?_
  obtain ⟨words, readOffset⟩ := a
  refine BusRefines.returned (readToWriter_refines hR hready' hqs hbefore)
    fun b x y hy hready'' _ => ?_
  obtain ⟨more, readOffset'⟩ := b
  dsimp only
  split
  · exact sameReply_done hy hready'' hqs.baseAddr
  · exact sameReply_done hy hready'' hqs.baseAddr

/-! ### Calls -/

theorem call_refines (call : Call) (h : t.Matches m polls s) (hready : t.regs.Ready)
    (hqs : m.Fits i (s i).qs) :
    BusRefines m polls i (callProgram polls (m.ch i) (s i).qs call)
      ((client (m.dir i)).program (s i) call) (SameReply m i) t s := by
  cases call with
  | write buff => exact write_refines h hready hqs
  | read num => exact read_refines h hready hqs
  | pullWrPtr =>
    refine BusRefines.returned (pullWrPtr_refines h hready) fun qs u v hR hready' hbase => ?_
    exact sameReply_done hR hready' (hbase.trans hqs.baseAddr)
  | pushRdPtr =>
    have hsize := m.size_lt i
    have hrd := hqs.rd_lt
    refine BusRefines.returned (pushRdPtr_refines h hready (by omega)) fun _ u v hR hready' _ => ?_
    exact sameReply_done hR hready' hqs.baseAddr

end MangOH.Mt7697q
