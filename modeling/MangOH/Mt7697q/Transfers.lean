import MangOH.Mt7697q.BusRules

/-! The transfers of the bus do what the requests for single words do. -/
namespace MangOH.Mt7697q
open Interaction Mt7697io OnBus

variable {ι : Type} {m : MemoryMap ι} {polls offset n : Nat} {i : ι} {t u : Board ι}
  {s v : ι → World} {α β β' : Type}

/-- Both return the same, and the slave is ready for a command. -/
def Same (Good : α → Prop) (r : Option (Except Errno α)) (r' : Except Errno α) (u : Board ι)
    (_ : ι → World) : Prop :=
  ∃ a, r = some (.ok a) ∧ r' = .ok a ∧ Good a ∧ u.regs.Ready

theorem slotAddr_succ (m : MemoryMap ι) (i : ι) (offset : Nat) :
    m.slotAddr i offset + 4 = m.slotAddr i (offset + 1) := by
  rw [← UInt32.toNat_inj]
  simp only [MemoryMap.slotAddr, wordAddr, UInt32.toNat_add, UInt32.toNat_ofNat']
  rw [show (4 : UInt32).toNat = 4 from rfl]
  omega

variable [DecidableEq ι]

/-! ### Sequencing -/

section Sequencing

variable {Good : α → Prop} {x : Bus α} {f : α → Bus β} {p : Spi α}
  {f' : Except Errno α → Program Request Answer β'}
  {Q : Option (Except Errno β) → β' → Board ι → (ι → World) → Prop}

theorem same_done {a : α} (h : t.Matches m polls s) (hready : t.regs.Ready) (hgood : Good a) :
    BusRefines m polls i (Bus.ok a) (.done (.ok a)) (Same Good) t s :=
  refines_done h fun _ _ huv => ⟨a, rfl, rfl, hgood, regs_of_later huv ▸ hready⟩

theorem BusRefines.andThen (h : BusRefines m polls i x p (Same Good) t s)
    (hf : ∀ a u v, u.Matches m polls v → u.regs.Ready → Good a →
      BusRefines m polls i (f a) (f' (.ok a)) Q u v) :
    BusRefines m polls i (x.andThen f) (p.bind f') Q t s := by
  refine Refines.bind h fun r r' u v hR hr => ?_
  obtain ⟨a, rfl, rfl, hgood, hready⟩ := hr
  exact hf a u v hR hready hgood

theorem BusRefines.returned {f : Except Errno α → Replying} {S : Option Reply → β' → Board ι →
    (ι → World) → Prop} (h : BusRefines m polls i x p (Same Good) t s)
    (hf : ∀ a u v, u.Matches m polls v → u.regs.Ready → Good a →
      BusRefines m polls i (f (.ok a)) (f' (.ok a)) S u v) :
    BusRefines m polls i (returned x f) (p.bind f') S t s := by
  refine Refines.bind h fun r r' u v hR hr => ?_
  obtain ⟨a, rfl, rfl, hgood, hready⟩ := hr
  exact hf a u v hR hready hgood

end Sequencing

/-! ### The accesses that stand for requests -/

section Accesses

variable {w : Word}

theorem performs_setWord (h : offset < m.size i) : Performs m polls i .write (.setWord offset w)
    (fun x _ => x = .ok ()) (m.slotAddr i offset) w := by
  intro u v hR hbus hdata
  obtain rfl := hR.queue
  refine ⟨⟨?_, hR.baseAddr, hR.pace, hR.misused⟩, rfl⟩
  rw [queue_perform_slotAddr hbus h, hdata]

theorem performs_setRdOffset : Performs m polls i .write (.setRdOffset (u16 w.toNat))
    (fun x _ => x = .ok ()) (m.rdAddr i) w := by
  intro u v hR hbus hdata
  obtain rfl := hR.queue
  refine ⟨⟨?_, hR.baseAddr, hR.pace, hR.misused⟩, rfl⟩
  rw [queue_perform_rdAddr hbus, hdata]

theorem performs_setWrOffset : Performs m polls i .write (.setWrOffset (u16 w.toNat))
    (fun x _ => x = .ok ()) (m.wrAddr i) w := by
  intro u v hR hbus hdata
  obtain rfl := hR.queue
  refine ⟨⟨?_, hR.baseAddr, hR.pace, hR.misused⟩, rfl⟩
  rw [queue_perform_wrAddr hbus, hdata]

/-- A read changes no queue. -/
theorem matches_perform_read {o : Request} (hR : u.Matches m polls v)
    (ho : (serve (v i) o).1 = v i) :
    (u.perform m .read).Matches m polls (Function.update v i (serve (v i) o).1) := by
  rw [ho, Function.update_eq_self]
  exact ⟨hR.queue, hR.baseAddr, hR.pace, hR.misused⟩

theorem performs_word (h : offset < m.size i) : Performs m polls i .read (.word offset)
    (fun x d => x = .ok d) (m.slotAddr i offset) w := by
  intro u v hR hbus _
  refine ⟨matches_perform_read hR rfl, ?_⟩
  obtain rfl := hR.queue
  change Except.ok ((u.queue m i).words offset) = Except.ok (u.mem u.regs.busAddr)
  rw [queue_word h, hbus]

theorem performs_rdOffset : Performs m polls i .read .rdOffset
    (fun x d => x = .ok (u16 d.toNat)) (m.rdAddr i) w := by
  intro u v hR hbus _
  refine ⟨matches_perform_read hR rfl, ?_⟩
  obtain rfl := hR.queue
  change Except.ok (u16 (u.mem (m.rdAddr i)).toNat) = Except.ok (u16 (u.mem u.regs.busAddr).toNat)
  rw [hbus]

theorem performs_wrOffset : Performs m polls i .read .wrOffset
    (fun x d => x = .ok (u16 d.toNat)) (m.wrAddr i) w := by
  intro u v hR hbus _
  refine ⟨matches_perform_read hR rfl, ?_⟩
  obtain rfl := hR.queue
  change Except.ok (u16 (u.mem (m.wrAddr i)).toNat) = Except.ok (u16 (u.mem u.regs.busAddr).toNat)
  rw [hbus]

end Accesses

/-! ### Transfers of several words -/

theorem wrWords_refines {words : List Word} (h : t.Matches m polls s) (hready : t.regs.Ready)
    (haddr : words ≠ [] → t.regs.busAddr = m.slotAddr i offset)
    (hend : offset + words.length ≤ m.size i) :
    BusRefines m polls i (wrWords polls words) (ioWr offset words) (Same fun _ => True) t s := by
  induction words generalizing offset t s with
  | nil => exact same_done h hready trivial
  | cons w words ih =>
    rw [List.length_cons] at hend
    refine BusSilent.andThen_refines (write32_writeData_silent h hready.2 w) fun _ u v hR hu => ?_
    have hperform : Performs m polls i .write (.setWord offset w) (fun x _ => x = .ok ())
        u.regs.busAddr u.regs.writeData := by
      rw [hu, haddr (by simp)]
      exact performs_setWord (by omega)
    change BusRefines m polls i ((write16 slaveRegCommand (command Rw.write.val)).andThen fun _ =>
      (slaveWait polls).andThen fun _ => wrWords polls words) (.ask (.setWord offset w) _) _ u v
    refine refines_access hR (hu ▸ hready) hperform ?_
    rintro x y z hz hy hbus rfl
    refine @ih (offset + 1) y z hz hy (fun _ => ?_) (by omega)
    rw [hbus, hu, haddr (by simp), slotAddr_succ]

theorem rdWords_refines (h : t.Matches m polls s) (hready : t.regs.Ready)
    (haddr : n ≠ 0 → t.regs.busAddr = m.slotAddr i offset) (hend : offset + n ≤ m.size i) :
    BusRefines m polls i (rdWords polls n) (ioRd offset n) (Same fun words => words.length = n)
      t s := by
  induction n generalizing offset t s with
  | zero => exact same_done h hready rfl
  | succ n ih =>
    have hperform : Performs m polls i .read (.word offset) (fun x d => x = .ok d)
        t.regs.busAddr t.regs.writeData := by
      rw [haddr (by simp)]
      exact performs_word (by omega)
    change BusRefines m polls i ((write16 slaveRegCommand (command Rw.read.val)).andThen fun _ =>
      (slaveWait polls).andThen fun _ => (read32 slaveRegReadDataLow).andThen fun w =>
      (rdWords polls n).andThen fun data => Bus.ok (w :: data)) (.ask (.word offset) _) _ t s
    refine refines_access h hready hperform ?_
    rintro x y z hz hy hbus rfl
    refine BusSilent.andThen_refines (read32_silent hz hy.2) fun w u v hR hu => ?_
    obtain ⟨rfl, hu⟩ := hu
    have hrest := @ih (offset + 1) u v hR (hu ▸ hy)
      (fun _ => by rw [hu, hbus, haddr (by simp), slotAddr_succ]) (by omega)
    refine BusRefines.andThen hrest fun words x z hz hy hlen => ?_
    exact same_done hz hy (by rw [List.length_cons, hlen])

theorem wr_refines {words : List Word} (h : t.Matches m polls s) (hready : t.regs.Ready)
    (hend : offset + words.length ≤ m.size i) :
    BusRefines m polls i (wr polls (m.slotAddr i offset) words) (ioWr offset words)
      (Same fun _ => True) t s := by
  refine BusSilent.andThen_refines (write32_busAddr_silent h hready.2 _) fun _ u v hR hu => ?_
  exact wrWords_refines hR (hu ▸ hready) (fun _ => by rw [hu]) hend

theorem rd_refines (h : t.Matches m polls s) (hready : t.regs.Ready)
    (hend : offset + n ≤ m.size i) :
    BusRefines m polls i (rd polls (m.slotAddr i offset) n) (ioRd offset n)
      (Same fun words => words.length = n) t s := by
  refine BusSilent.andThen_refines (write32_busAddr_silent h hready.2 _) fun _ u v hR hu => ?_
  exact rdWords_refines hR (hu ▸ hready) (fun _ => by rw [hu]) hend

end MangOH.Mt7697q
