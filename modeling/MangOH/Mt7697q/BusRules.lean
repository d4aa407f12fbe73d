import MangOH.Mt7697q.Accesses

/-! The functions of the bus do what the requests say that stand for them. -/
namespace MangOH.Mt7697q
open Interaction Relation Mt7697io OnBus

variable {ι : Type} {m : MemoryMap ι} {polls n : Nat} {i : ι} {t u : Board ι} {s v : ι → World}
  {α β α' β' : Type}

/-! ### The registers -/

theorem Board.Matches.setRegs (h : t.Matches m polls s) (r : Registers) :
    Board.Matches m polls { t with regs := r } s :=
  ⟨h.queue, h.baseAddr, h.pace, h.misused⟩

theorem touch_of_ready {reg : UInt8} (h : t.regs.busy = 0) : t.touch reg = t :=
  if_neg fun hbusy => hbusy.1 h

theorem poll_idle (h : u.regs.busy = 0) : u.poll m = (u, 0) := by
  rw [Board.poll, h]

theorem poll_busy (h : u.regs.busy = n + 1) :
    u.poll m = (Board.advance m { u with regs.busy := n }, 1) := by
  rw [Board.poll, h]

theorem advance_done (h : u.regs.pending = none) : u.advance m = u := by
  rw [Board.advance, h]

theorem advance_now {rw : Rw} (h : u.regs.pending = some (rw, 0)) :
    u.advance m = u.perform m rw := by
  simp only [Board.advance, h]

theorem advance_later {rw : Rw} {k : Nat} (h : u.regs.pending = some (rw, k + 1)) :
    u.advance m = { u with regs.pending := some (rw, k) } := by
  simp only [Board.advance, h]

theorem perform_regs (u : Board ι) (rw : Rw) : (u.perform m rw).regs.pending = none ∧
    (u.perform m rw).regs.busy = u.regs.busy ∧
    (u.perform m rw).regs.busAddr = u.regs.busAddr + 4 := by
  cases rw <;> exact ⟨rfl, rfl, rfl⟩

theorem ioBusy_idle : ioBusy 0 = false := rfl

theorem ioBusy_busy : ioBusy 1 = true := rfl

variable [DecidableEq ι]

abbrev BusSilent (m : MemoryMap ι) (polls : Nat) (q : Program Transfer TransferAnswer α')
    (Q : α' → Board ι → (ι → World) → Prop) (t : Board ι) (s : ι → World) : Prop :=
  Silent (busFace m polls) (fun i => face (m.dir i)) (Board.Matches m polls) q Q t s

abbrev BusRefines (m : MemoryMap ι) (polls : Nat) (i : ι) (q : Program Transfer TransferAnswer α')
    (p : Program Request Answer α) (Q : α' → α → Board ι → (ι → World) → Prop) (t : Board ι)
    (s : ι → World) : Prop :=
  Refines (busFace m polls) (fun i => face (m.dir i)) (Board.Matches m polls) i q p Q t s

abbrev BusLater (m : MemoryMap ι) (polls : Nat) (t : Board ι) (s : ι → World) (u : Board ι)
    (v : ι → World) : Prop :=
  Later (busFace m polls) (fun i => face (m.dir i)) (Board.Matches m polls) t s u v

/-! ### The slave meanwhile -/

theorem exists_later (h : t.Matches m polls s) (hstep : SlaveActs m polls t u) :
    ∃ v, BusLater m polls t s u v := by
  have hbase : u.qs = t.qs := by cases hstep <;> rfl
  have hmisused : u.misused = t.misused := by cases hstep <;> rfl
  have hpace : u.pace.1 + u.pace.2 < polls := by
    cases hstep with
    | pace before after hlt => exact hlt
    | _ => exact h.pace
  have hu : u.Matches m polls (u.queue m) :=
    ⟨rfl, fun i => hbase ▸ h.baseAddr i, hpace, hmisused.trans h.misused⟩
  refine ⟨u.queue m, .single hstep, fun j => ?_, hu⟩
  rw [h.queue]
  rcases hstep.queue with hsame | ⟨i, s, henv, hqueue⟩
  · rw [hsame]
  · rw [hqueue]
    by_cases hj : j = i
    · subst hj
      rw [Function.update_self]
      exact .single henv
    · rw [Function.update_of_ne hj]

theorem regs_of_later (h : BusLater m polls t s u v) : u.regs = t.regs := by
  have hlow := h.low
  clear h
  induction hlow with
  | refl => rfl
  | tail _ hstep ih => exact (SlaveActs.regs hstep).trans ih

/-! ### Sequencing -/

theorem BusSilent.andThen {x : Bus α} {f : α → Bus β} {Q : α → Board ι → (ι → World) → Prop}
    {S : Option (Except Errno β) → Board ι → (ι → World) → Prop}
    (h : BusSilent m polls x (fun r u v => ∃ a, r = some (.ok a) ∧ Q a u v) t s)
    (hf : ∀ a u v, u.Matches m polls v → Q a u v → BusSilent m polls (f a) S u v) :
    BusSilent m polls (x.andThen f) S t s := by
  refine Silent.bind h fun r u v hR hr => ?_
  obtain ⟨a, rfl, hQ⟩ := hr
  exact hf a u v hR hQ

theorem BusSilent.andThen_refines {x : Bus α} {f : α → Bus β} {p : Program Request Answer α'}
    {Q : α → Board ι → (ι → World) → Prop}
    {S : Option (Except Errno β) → α' → Board ι → (ι → World) → Prop}
    (h : BusSilent m polls x (fun r u v => ∃ a, r = some (.ok a) ∧ Q a u v) t s)
    (hf : ∀ a u v, u.Matches m polls v → Q a u v → BusRefines m polls i (f a) p S u v) :
    BusRefines m polls i (x.andThen f) p S t s := by
  refine Silent.bind_refines h fun r u v hR hr => ?_
  obtain ⟨a, rfl, hQ⟩ := hr
  exact hf a u v hR hQ

/-! ### Single transfers -/

theorem write16_silent {reg : UInt8} {value : UInt16} {r : Registers} (h : t.Matches m polls s)
    (hready : t.regs.busy = 0)
    (hwrite : ∀ (u : Board ι) v, u.Matches m polls v → u.regs = t.regs →
      (u.write m reg value).Matches m polls v ∧ (u.write m reg value).regs = r) :
    BusSilent m polls (write16 reg value)
      (fun ret u _ => ∃ a, ret = some (.ok a) ∧ u.regs = r) t s := by
  refine ⟨h, fun u v huv => ?_⟩
  have hregs := regs_of_later huv
  have hserve : ((busFace m polls).serve u
      (.write ⟨cmdWrite, reg, highByte value, lowByte value⟩)).1 = u.write m reg value := by
    change (u.touch reg).write m reg (ofBytes (highByte value) (lowByte value)) = _
    rw [ofBytes_bytes, touch_of_ready (hregs ▸ hready)]
  obtain ⟨hR, hr⟩ := hwrite u v huv.related hregs
  rw [hserve]
  exact ⟨hR, fun w x hwx => ⟨(), rfl, (regs_of_later hwx).trans hr⟩⟩

theorem write32_busAddr_silent (h : t.Matches m polls s) (hready : t.regs.busy = 0)
    (addr : UInt32) : BusSilent m polls (write32 slaveRegBusAddrLow addr)
      (fun ret u _ => ∃ a, ret = some (.ok a) ∧ u.regs = { t.regs with busAddr := addr }) t s := by
  refine BusSilent.andThen (write16_silent h hready (r := { t.regs with
    busAddr := ofHalves (lowHalf addr) (highHalf t.regs.busAddr) }) ?_) fun _ u v hR hu => ?_
  · intro u v hR hu
    rw [← hu]
    exact ⟨hR.setRegs _, rfl⟩
  · refine write16_silent hR (hu ▸ hready) fun w x hx hw => ⟨hx.setRegs { w.regs with
      busAddr := ofHalves (lowHalf w.regs.busAddr) (highHalf addr) }, ?_⟩
    change { w.regs with busAddr := ofHalves (lowHalf w.regs.busAddr) (highHalf addr) } = _
    rw [hw, hu, lowHalf_ofHalves, ofHalves_halves]

theorem write32_writeData_silent (h : t.Matches m polls s) (hready : t.regs.busy = 0) (w : Word) :
    BusSilent m polls (write32 slaveRegWriteDataLow w)
      (fun ret u _ => ∃ a, ret = some (.ok a) ∧ u.regs = { t.regs with writeData := w }) t s := by
  refine BusSilent.andThen (write16_silent h hready (r := { t.regs with
    writeData := ofHalves (lowHalf w) (highHalf t.regs.writeData) }) ?_) fun _ u v hR hu => ?_
  · intro u v hR hu
    rw [← hu]
    exact ⟨hR.setRegs _, rfl⟩
  · refine write16_silent hR (hu ▸ hready) fun x y hy hx => ⟨hy.setRegs { x.regs with
      writeData := ofHalves (lowHalf x.regs.writeData) (highHalf w) }, ?_⟩
    change { x.regs with writeData := ofHalves (lowHalf x.regs.writeData) (highHalf w) } = _
    rw [hx, hu, lowHalf_ofHalves, ofHalves_halves]

theorem read16_silent {reg : UInt8} {Good : UInt16 → Prop} (h : t.Matches m polls s)
    (hready : t.regs.busy = 0)
    (hread : ∀ u : Board ι, u.regs = t.regs → ∃ value, u.read m reg = (u, value) ∧ Good value) :
    BusSilent m polls (read16 reg)
      (fun ret u _ => ∃ a, ret = some (.ok a) ∧ Good a ∧ u.regs = t.regs) t s := by
  refine ⟨h, fun u v huv => ?_⟩
  have hregs := regs_of_later huv
  obtain ⟨value, hvalue, hgood⟩ := hread u hregs
  have hserve : (busFace m polls).serve u (.writeThenRead ⟨cmdRead, reg, 0, 0⟩) =
      (u, .ok ⟨0, 0, highByte value, lowByte value⟩) := by
    change (((u.touch reg).read m reg).1, _) = _
    rw [touch_of_ready (hregs ▸ hready), hvalue]
  rw [hserve]
  exact ⟨huv.related, fun w x hwx =>
    ⟨_, rfl, (ofBytes_bytes value).symm ▸ hgood, (regs_of_later hwx).trans hregs⟩⟩

theorem read32_silent (h : t.Matches m polls s) (hready : t.regs.busy = 0) :
    BusSilent m polls (read32 slaveRegReadDataLow) (fun ret u _ => ∃ a, ret = some (.ok a) ∧
      a = t.regs.readData ∧ u.regs = t.regs) t s := by
  have hlow : ∀ u : Board ι, u.regs = t.regs → ∃ value,
      u.read m slaveRegReadDataLow = (u, value) ∧ value = lowHalf t.regs.readData :=
    fun u hu => ⟨_, rfl, hu ▸ rfl⟩
  have hhigh : ∀ u : Board ι, u.regs = t.regs → ∃ value,
      u.read m (slaveRegReadDataLow + 2) = (u, value) ∧ value = highHalf t.regs.readData :=
    fun u hu => ⟨_, rfl, hu ▸ rfl⟩
  refine BusSilent.andThen (read16_silent h hready hlow) fun low u v hR hu => ?_
  obtain ⟨rfl, hu⟩ := hu
  refine BusSilent.andThen (read16_silent hR (hu ▸ hready) fun w hw => hhigh w (hw.trans hu))
    fun high w x hR' hw => ?_
  obtain ⟨rfl, hw⟩ := hw
  exact ⟨hR', fun y z hyz =>
    ⟨_, rfl, ofHalves_halves _, (regs_of_later hyz).trans (hw.trans hu)⟩⟩

/-! ### Commands -/

theorem serve_status (u : Board ι) : (busFace m polls).serve u
    (.writeThenRead ⟨cmdRead, slaveRegStatus, 0, 0⟩) =
      ((u.poll m).1, .ok ⟨0, 0, highByte (u.poll m).2, lowByte (u.poll m).2⟩) := by
  have htouch : u.touch slaveRegStatus = u := if_neg fun h => absurd h.2 (by decide)
  change (((u.touch slaveRegStatus).read m slaveRegStatus).1, _) = _
  rw [htouch]
  rfl

/-- A wait after the access. -/
theorem slaveWait_silent (h : t.Matches m polls s) (hpending : t.regs.pending = none)
    (hbusy : t.regs.busy < n) : BusSilent m polls (slaveWait n)
      (fun ret u _ => ∃ a, ret = some (.ok a) ∧ u.regs = { t.regs with busy := 0 }) t s := by
  induction n generalizing t s with
  | zero => cases hbusy
  | succ n ih =>
    refine ⟨h, fun u v huv => ?_⟩
    have hregs := regs_of_later huv
    rw [serve_status]
    change BusSilent m polls (if ioBusy (ofBytes (highByte (u.poll m).2) (lowByte (u.poll m).2))
      then slaveWait n else Bus.ok ()) _ (u.poll m).1 v
    rw [ofBytes_bytes]
    cases hk : t.regs.busy with
    | zero =>
      simp only [poll_idle (hregs ▸ hk), ioBusy_idle, Bool.false_eq_true, if_false]
      refine ⟨huv.related, fun w x hwx => ⟨(), rfl, ?_⟩⟩
      rw [regs_of_later hwx, hregs, ← hk]
    | succ k =>
      simp only [poll_busy (hregs ▸ hk), ioBusy_busy, if_true,
        advance_done (u := { u with regs.busy := k }) (hregs ▸ hpending)]
      have hrest := ih (huv.related.setRegs { u.regs with busy := k }) (hregs ▸ hpending)
        (by change k < n; omega)
      rw [hregs] at hrest ⊢
      exact hrest

/-- The value of a command. -/
def Rw.val : Rw → Nat
  | .read => commandRegRwValRead
  | .write => commandRegRwValWrite

variable {rw : Rw} {o : Request} {next : Answer o → Program Request Answer α}
  {f : Unit → Bus β} {P : Answer o → Word → Prop} {k : Nat} {addr : UInt32} {w : Word}
  {Q : Option (Except Errno β) → α → Board ι → (ι → World) → Prop}

/-- The access of the command is the request, whenever it is made. -/
def Performs (m : MemoryMap ι) (polls : Nat) (i : ι) (rw : Rw) (o : Request)
    (P : Answer o → Word → Prop) (addr : UInt32) (w : Word) : Prop :=
  ∀ (u : Board ι) v, u.Matches m polls v → u.regs.busAddr = addr → u.regs.writeData = w →
    (u.perform m rw).Matches m polls (Function.update v i (serve (v i) o).1) ∧
      P (serve (v i) o).2 (u.perform m rw).regs.readData

/-- What comes after the wait goes on from a slave that is ready again. -/
def GoesOn (m : MemoryMap ι) (polls : Nat) (i : ι) (o : Request) (P : Answer o → Word → Prop)
    (addr : UInt32) (f : Unit → Bus β) (next : Answer o → Program Request Answer α)
    (Q : Option (Except Errno β) → α → Board ι → (ι → World) → Prop) : Prop :=
  ∀ x (u : Board ι) v, u.Matches m polls v → u.regs.Ready → u.regs.busAddr = addr + 4 →
    P x u.regs.readData → BusRefines m polls i (f ()) (next x) Q u v

/-- A wait once the access has been made. -/
theorem refines_made {x : Answer o} (h : t.Matches m polls s) (hpending : t.regs.pending = none)
    (hbusy : t.regs.busy < n) (haddr : t.regs.busAddr = addr + 4) (hP : P x t.regs.readData)
    (hf : GoesOn m polls i o P addr f next Q) :
    BusRefines m polls i ((slaveWait n).andThen f) (next x) Q t s := by
  refine BusSilent.andThen_refines (slaveWait_silent h hpending hbusy) fun _ u v hR hu => ?_
  exact hf x u v hR (hu ▸ ⟨hpending, rfl⟩) (hu ▸ haddr) (hu ▸ hP)

/-- The step of a command that may make its access. -/
theorem refines_advance (h : t.Matches m polls s) (hpending : t.regs.pending = some (rw, k))
    (hbusy : t.regs.busy < n) (haddr : t.regs.busAddr = addr) (hdata : t.regs.writeData = w)
    (hperform : Performs m polls i rw o P addr w) (hf : GoesOn m polls i o P addr f next Q)
    (hlater : ∀ l, k = l + 1 → BusRefines m polls i ((slaveWait n).andThen f) (.ask o next) Q
      { t with regs.pending := some (rw, l) } s) :
    BusRefines m polls i ((slaveWait n).andThen f) (.ask o next) Q (t.advance m) s ∨
    ∃ o' next', Program.ask o next = .ask o' next' ∧
      BusRefines m polls i ((slaveWait n).andThen f) (next' ((face (m.dir i)).serve (s i) o').2) Q
        (t.advance m) (Function.update s i ((face (m.dir i)).serve (s i) o').1) := by
  cases k with
  | zero =>
    obtain ⟨hR, hP⟩ := hperform t s h haddr hdata
    obtain ⟨hnone, hsame, hnext⟩ := perform_regs (m := m) t rw
    refine .inr ⟨o, next, rfl, ?_⟩
    rw [advance_now hpending, face_serve]
    exact refines_made hR hnone (hsame ▸ hbusy) (haddr ▸ hnext) hP hf
  | succ l =>
    rw [advance_later hpending]
    exact .inl (hlater l rfl)

/-- A wait before it. -/
theorem refines_pending (h : t.Matches m polls s) (hpending : t.regs.pending = some (rw, k))
    (hk : k < t.regs.busy) (hbusy : t.regs.busy < n) (haddr : t.regs.busAddr = addr)
    (hdata : t.regs.writeData = w) (hperform : Performs m polls i rw o P addr w)
    (hf : GoesOn m polls i o P addr f next Q) :
    BusRefines m polls i ((slaveWait n).andThen f) (.ask o next) Q t s := by
  induction n generalizing k t s with
  | zero => cases hbusy
  | succ n ih =>
    refine ⟨h, fun u v huv => ?_⟩
    have hregs := regs_of_later huv
    obtain ⟨b, hb⟩ : ∃ b, t.regs.busy = b + 1 := ⟨t.regs.busy - 1, by omega⟩
    rw [serve_status]
    change BusRefines m polls i (Bus.andThen (if ioBusy (ofBytes (highByte (u.poll m).2)
      (lowByte (u.poll m).2)) then slaveWait n else Bus.ok ()) f) _ _ (u.poll m).1 v ∨
      ∃ o' next', _ ∧ BusRefines m polls i (Bus.andThen (if ioBusy (ofBytes (highByte (u.poll m).2)
      (lowByte (u.poll m).2)) then slaveWait n else Bus.ok ()) f) _ _ (u.poll m).1 _
    rw [ofBytes_bytes]
    simp only [poll_busy (hregs ▸ hb), ioBusy_busy, if_true]
    refine refines_advance (huv.related.setRegs { u.regs with busy := b }) (hregs ▸ hpending)
      (by change b < n; omega) (hregs ▸ haddr) (hregs ▸ hdata) hperform hf fun l hl => ?_
    exact ih (huv.related.setRegs { u.regs with pending := some (rw, l), busy := b }) rfl
      (by change l < b; omega) (by change b < n; omega) (hregs ▸ haddr) (hregs ▸ hdata)

/-- A command and the wait for it. -/
theorem refines_access (h : t.Matches m polls s) (hready : t.regs.Ready)
    (hperform : Performs m polls i rw o P t.regs.busAddr t.regs.writeData)
    (hf : GoesOn m polls i o P t.regs.busAddr f next Q) :
    BusRefines m polls i ((write16 slaveRegCommand (command rw.val)).andThen fun _ =>
      (slaveWait polls).andThen f) (.ask o next) Q t s := by
  refine ⟨h, fun u v huv => ?_⟩
  have hregs := regs_of_later huv
  have hpace := huv.related.pace
  have hserve : (busFace m polls).serve u (.write ⟨cmdWrite, slaveRegCommand,
      highByte (command rw.val), lowByte (command rw.val)⟩) = (u.start m rw, .ok ()) := by
    change ((u.touch slaveRegCommand).write m slaveRegCommand
      (ofBytes (highByte (command rw.val)) (lowByte (command rw.val))), _) = _
    rw [ofBytes_bytes, touch_of_ready (hregs ▸ hready.2)]
    cases rw <;> rfl
  rw [hserve]
  change BusRefines m polls i ((slaveWait polls).andThen f) _ _ (u.start m rw) v ∨
    ∃ o' next', _ ∧ BusRefines m polls i ((slaveWait polls).andThen f) _ _ (u.start m rw) _
  refine refines_advance (huv.related.setRegs { u.regs with
    pending := some (rw, u.pace.1), busy := u.pace.1 + u.pace.2 }) rfl hpace (hregs ▸ rfl)
    (hregs ▸ rfl) hperform hf fun l hl => ?_
  exact refines_pending (huv.related.setRegs { u.regs with
    pending := some (rw, l), busy := u.pace.1 + u.pace.2 }) rfl
    (by change l < u.pace.1 + u.pace.2; omega) hpace (hregs ▸ rfl) (hregs ▸ rfl) hperform hf

end MangOH.Mt7697q
