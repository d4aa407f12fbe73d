import MangOH.Mt7697q.Board

/-! What the accesses to the slave's memory do to each queue. -/
namespace MangOH.Mt7697q
open Interaction Relation Mt7697io OnBus

variable {ι : Type} {m : MemoryMap ι} {t u : Board ι} {i j : ι} {polls offset : Nat}
  {addr : UInt32} {w : Word}

/-! ### Addresses -/

theorem toNat_dataAddr {ch : Fin numQueues} {field : Nat} (h : field < sizeofData) :
    (dataAddr ch field).toNat = slaveBufferAddress.toNat + ch.val * sizeofData + field := by
  have hch : ch.val < 6 := ch.isLt
  have hbase : slaveBufferAddress.toNat = 0x20000200 := rfl
  simp only [dataAddr, UInt32.toNat_add, UInt32.toNat_ofNat', sizeofData, hbase] at h ⊢
  omega

theorem MemoryMap.toNat_slotAddr (h : offset < m.size i) :
    (m.slotAddr i offset).toNat = (m.baseAddr i).toNat + 4 * offset := by
  have hfits := m.fits i
  have hlt : offset < numWords (m.flags i) := h
  simp only [MemoryMap.slotAddr, wordAddr, UInt32.toNat_add, UInt32.toNat_ofNat']
  omega

theorem MemoryMap.slotAddr_inj {k : Nat} (h : offset < m.size i) (hk : k < m.size i) :
    m.slotAddr i k = m.slotAddr i offset ↔ k = offset := by
  rw [← UInt32.toNat_inj, m.toNat_slotAddr h, m.toNat_slotAddr hk]
  omega

theorem MemoryMap.inRing_slotAddr (h : offset < m.size i) : m.InRing i (m.slotAddr i offset) := by
  rw [MemoryMap.InRing, m.toNat_slotAddr h]
  omega

theorem MemoryMap.owns_rdAddr (m : MemoryMap ι) (i : ι) : m.Owns i (m.rdAddr i) := by
  refine .inl ?_
  rw [MemoryMap.rdAddr, toNat_dataAddr (by decide), toNat_dataAddr (by decide)]
  simp only [offsetofRdOffset, sizeofData]
  omega

theorem MemoryMap.owns_wrAddr (m : MemoryMap ι) (i : ι) : m.Owns i (m.wrAddr i) := by
  refine .inl ?_
  rw [MemoryMap.wrAddr, toNat_dataAddr (by decide), toNat_dataAddr (by decide)]
  simp only [offsetofWrOffset, sizeofData]
  omega

theorem MemoryMap.owns_slotAddr (h : offset < m.size i) : m.Owns i (m.slotAddr i offset) :=
  .inr (m.inRing_slotAddr h)

/-- No control word is in a ring. -/
theorem MemoryMap.not_inRing_dataAddr {ch : Fin numQueues} {field : Nat} (h : field < sizeofData) :
    ¬ m.InRing i (dataAddr ch field) := by
  have hclear := m.clear i
  have hch := ch.isLt
  rw [MemoryMap.InRing, toNat_dataAddr h]
  simp only [sizeofData, MemoryMap.size] at h hclear ⊢
  omega

/-- No two queues share memory. -/
theorem MemoryMap.Owns.unique (hi : m.Owns i addr) (hij : j ≠ i) : ¬ m.Owns j addr := by
  have hch : (m.ch j).val ≠ (m.ch i).val := fun h => hij (m.ch_injective (Fin.ext h))
  have hchi := (m.ch i).isLt
  have hchj := (m.ch j).isLt
  have hapart := m.apart i j hij.symm
  have hcleari := m.clear i
  have hclearj := m.clear j
  simp only [MemoryMap.Owns, MemoryMap.InRing, toNat_dataAddr (show 0 < sizeofData by decide),
    sizeofData, MemoryMap.size] at hi hcleari hclearj ⊢
  omega

theorem dataAddr_ne {ch : Fin numQueues} {a b : Nat} (ha : a < sizeofData) (hb : b < sizeofData)
    (h : a ≠ b) : dataAddr ch a ≠ dataAddr ch b := by
  rw [Ne, ← UInt32.toNat_inj, toNat_dataAddr ha, toNat_dataAddr hb]
  omega

theorem rdAddr_ne_wrAddr : m.rdAddr i ≠ m.wrAddr i :=
  dataAddr_ne (by decide) (by decide) (by decide)

theorem slotAddr_ne_rdAddr (h : offset < m.size i) : m.slotAddr i offset ≠ m.rdAddr j :=
  fun heq => m.not_inRing_dataAddr (by decide) (heq ▸ m.inRing_slotAddr h)

theorem slotAddr_ne_wrAddr (h : offset < m.size i) : m.slotAddr i offset ≠ m.wrAddr j :=
  fun heq => m.not_inRing_dataAddr (by decide) (heq ▸ m.inRing_slotAddr h)

/-! ### Queues -/

theorem words_poke (h : ∀ k < m.size i, m.slotAddr i k ≠ addr) :
    ((t.poke addr w).queue m i).words = (t.queue m i).words := by
  funext k
  simp only [Board.queue, Board.poke]
  split
  · rw [Function.update_of_ne (h k ‹_›)]
  · rfl

theorem queue_poke_of_not_owns (h : ¬ m.Owns j addr) :
    (t.poke addr w).queue m j = t.queue m j := by
  have hrd : m.rdAddr j ≠ addr := fun heq => h (heq ▸ m.owns_rdAddr j)
  have hwr : m.wrAddr j ≠ addr := fun heq => h (heq ▸ m.owns_wrAddr j)
  have hwords : ((t.poke addr w).queue m j).words = (t.queue m j).words :=
    words_poke fun k hk heq => h (heq ▸ m.owns_slotAddr hk)
  simp only [Board.queue, Board.poke, Function.update_of_ne hrd, Function.update_of_ne hwr]
    at hwords ⊢
  rw [hwords]

theorem queue_poke_rdAddr : (t.poke (m.rdAddr i) w).queue m i =
    { t.queue m i with shared.rdOffset := u16 w.toNat } := by
  have hwords : ((t.poke (m.rdAddr i) w).queue m i).words = (t.queue m i).words :=
    words_poke fun k hk => slotAddr_ne_rdAddr hk
  simp only [Board.queue, Board.poke, Function.update_self,
    Function.update_of_ne rdAddr_ne_wrAddr.symm] at hwords ⊢
  rw [hwords]

theorem queue_poke_wrAddr : (t.poke (m.wrAddr i) w).queue m i =
    { t.queue m i with shared.wrOffset := u16 w.toNat } := by
  have hwords : ((t.poke (m.wrAddr i) w).queue m i).words = (t.queue m i).words :=
    words_poke fun k hk => slotAddr_ne_wrAddr hk
  simp only [Board.queue, Board.poke, Function.update_self,
    Function.update_of_ne rdAddr_ne_wrAddr] at hwords ⊢
  rw [hwords]

theorem queue_poke_slotAddr (h : offset < m.size i) : (t.poke (m.slotAddr i offset) w).queue m i =
    { t.queue m i with words := Function.update (t.queue m i).words offset w } := by
  have hwords : ((t.poke (m.slotAddr i offset) w).queue m i).words =
      Function.update (t.queue m i).words offset w := by
    funext k
    by_cases hk : k = offset
    · simp only [Board.queue, Board.poke, hk, if_pos h, Function.update_self]
    · rw [Function.update_of_ne hk]
      simp only [Board.queue, Board.poke]
      split
      · rw [Function.update_of_ne (mt (m.slotAddr_inj h ‹_›).mp hk)]
      · rfl
  simp only [Board.queue, Board.poke, Function.update_of_ne (slotAddr_ne_rdAddr h).symm,
    Function.update_of_ne (slotAddr_ne_wrAddr h).symm] at hwords ⊢
  rw [hwords]

theorem queue_word (h : offset < m.size i) :
    (t.queue m i).words offset = t.mem (m.slotAddr i offset) := if_pos h

/-! ### Accesses -/

theorem queue_perform_write : (t.perform m .write).queue m j =
    { (t.poke t.regs.busAddr t.regs.writeData).queue m j with
      written := if m.InRing j t.regs.busAddr then t.written j ++ [t.regs.writeData]
        else t.written j } := rfl

theorem queue_perform_of_not_owns (h : ¬ m.Owns j t.regs.busAddr) :
    (t.perform m .write).queue m j = t.queue m j := by
  rw [queue_perform_write, queue_poke_of_not_owns h, if_neg (mt Or.inr h)]
  rfl

theorem face_serve (d : Dir) : (face d).serve = serve := by
  cases d <;> rfl

theorem env_m2s (h : m.dir i = .m2s) : (face (m.dir i)).env = Consumes := by
  rw [h]
  rfl

theorem env_s2m (h : m.dir i = .s2m) : (face (m.dir i)).env = Produces := by
  rw [h]
  rfl

variable [DecidableEq ι]

/-- A write that is a request for one queue leaves the others alone. -/
theorem queue_perform {o : Request} (howns : m.Owns i t.regs.busAddr)
    (h : (t.perform m .write).queue m i = (serve (t.queue m i) o).1) :
    (t.perform m .write).queue m = Function.update (t.queue m) i (serve (t.queue m i) o).1 := by
  funext j
  by_cases hj : j = i
  · rw [hj, Function.update_self, h]
  · rw [Function.update_of_ne hj, queue_perform_of_not_owns (howns.unique hj)]

theorem queue_perform_slotAddr (hbus : t.regs.busAddr = m.slotAddr i offset)
    (h : offset < m.size i) : (t.perform m .write).queue m =
      Function.update (t.queue m) i (serve (t.queue m i) (.setWord offset t.regs.writeData)).1 := by
  refine queue_perform (hbus ▸ m.owns_slotAddr h) ?_
  rw [queue_perform_write, hbus, queue_poke_slotAddr h, if_pos (m.inRing_slotAddr h)]
  rfl

theorem queue_perform_rdAddr (hbus : t.regs.busAddr = m.rdAddr i) :
    (t.perform m .write).queue m = Function.update (t.queue m) i
      (serve (t.queue m i) (.setRdOffset (u16 t.regs.writeData.toNat))).1 := by
  refine queue_perform (hbus ▸ m.owns_rdAddr i) ?_
  rw [queue_perform_write, hbus, queue_poke_rdAddr,
    if_neg (show ¬ m.InRing i (m.rdAddr i) from m.not_inRing_dataAddr (by decide))]
  rfl

theorem queue_perform_wrAddr (hbus : t.regs.busAddr = m.wrAddr i) :
    (t.perform m .write).queue m = Function.update (t.queue m) i
      (serve (t.queue m i) (.setWrOffset (u16 t.regs.writeData.toNat))).1 := by
  refine queue_perform (hbus ▸ m.owns_wrAddr i) ?_
  rw [queue_perform_write, hbus, queue_poke_wrAddr,
    if_neg (show ¬ m.InRing i (m.wrAddr i) from m.not_inRing_dataAddr (by decide))]
  rfl

/-! ### The slave -/

/-- What the driver's requests rely on, at both levels. -/
structure Board.Matches (m : MemoryMap ι) (polls : Nat) (t : Board ι) (s : ι → World) : Prop where
  queue : s = t.queue m
  baseAddr : ∀ i, (t.qs i).baseAddr = m.baseAddr i
  pace : t.pace.1 + t.pace.2 < polls
  misused : t.misused = false

variable {s v : ι → World}

theorem queue_setSlave (offsets : Offsets) : (t.setSlave i offsets).queue m =
    Function.update (t.queue m) i { t.queue m i with slave := offsets } := by
  funext j
  by_cases hj : j = i
  · subst hj
    simp only [Board.queue, Board.setSlave, Function.update_self]
  · simp only [Board.queue, Board.setSlave, Function.update_of_ne hj]

theorem queue_poke {s : World} (howns : m.Owns i addr) (h : (t.poke addr w).queue m i = s) :
    (t.poke addr w).queue m = Function.update (t.queue m) i s := by
  funext j
  by_cases hj : j = i
  · rw [hj, Function.update_self, h]
  · rw [Function.update_of_ne hj, queue_poke_of_not_owns (howns.unique hj)]

theorem queue_receive : (t.receive i w).queue m =
    Function.update (t.queue m) i
      { t.queue m i with received := (t.queue m i).received ++ [w] } := by
  funext j
  by_cases hj : j = i
  · subst hj
    simp only [Board.queue, Board.receive, Function.update_self]
  · simp only [Board.queue, Board.receive, Function.update_of_ne hj]

theorem queue_record : (t.record i w).queue m =
    Function.update (t.queue m) i { t.queue m i with written := (t.queue m i).written ++ [w] } := by
  funext j
  by_cases hj : j = i
  · subst hj
    simp only [Board.queue, Board.record, Function.update_self]
  · simp only [Board.queue, Board.record, Function.update_of_ne hj]

theorem SlaveActs.regs (h : SlaveActs m polls t u) : u.regs = t.regs := by
  cases h <;> rfl

/-- A step of the slave is one at one end of one queue, or nothing that a queue sees. -/
theorem SlaveActs.queue (h : SlaveActs m polls t u) : u.queue m = t.queue m ∨
    ∃ i s, (face (m.dir i)).env (t.queue m i) s ∧ u.queue m = Function.update (t.queue m) i s := by
  cases h with
  | lookWr i hdir =>
    refine .inr ⟨i, _, ?_, queue_setSlave _⟩
    rw [hdir]
    exact .look (t.queue m i)
  | take i hdir hne hlt =>
    have henv := Consumes.take (t.queue m i) hne
    rw [← env_m2s hdir] at henv
    refine .inr ⟨i, _, henv, ?_⟩
    rw [queue_receive, queue_setSlave, Function.update_idem, Function.update_self,
      ← queue_word hlt]
    rfl
  | giveRd i w hdir hw =>
    refine .inr ⟨i, _, ?_, queue_poke (m.owns_rdAddr i) queue_poke_rdAddr⟩
    rw [hdir, hw]
    exact .give (t.queue m i)
  | lookRd i hdir =>
    refine .inr ⟨i, _, ?_, queue_setSlave _⟩
    rw [hdir]
    exact .look (t.queue m i)
  | put i w hdir hne hlt =>
    have henv := Produces.put (t.queue m i) w hne
    rw [← env_s2m hdir] at henv
    refine .inr ⟨i, _, henv, ?_⟩
    rw [queue_record, queue_poke (m.owns_slotAddr hlt) (queue_poke_slotAddr hlt),
      queue_setSlave, Function.update_idem, Function.update_idem, Function.update_self,
      Function.update_self]
    rfl
  | giveWr i w hdir hw =>
    refine .inr ⟨i, _, ?_, queue_poke (m.owns_wrAddr i) queue_poke_wrAddr⟩
    rw [hdir, hw]
    exact .give (t.queue m i)
  | other addr w h => exact .inl (funext fun i => queue_poke_of_not_owns (h i))
  | pace before after h => exact .inl rfl
  | signal bits => exact .inl rfl

end MangOH.Mt7697q
