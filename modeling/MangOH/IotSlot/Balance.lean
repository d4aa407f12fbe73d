import MangOH.IotSlot.Slot

/-! The slot gives back what it takes. -/
namespace MangOH.IotSlot
open Lib

/-- What is acquired before the card is looked at. -/
def essential (pdata : PlatformData) : List Resource :=
  [.i2cAdapter, .gpio pdata.cardDetectGpio, .gpio pdata.resetGpio]

/-- What an entry of `interfaces` stands for. -/
def heldBy (pdata : PlatformData) : SlotInterface → List Resource
  | .gpio => pdata.gpios
  | .i2c client => [.i2cClient client]
  | .spi device => [.spiDevice device, .spiMaster]
  | .bus bus => if pdata.hasRelease bus then [.bus bus] else []
  | .clk | .platform => []

/-- Whether the release of the entry finds its function. -/
def IsReleasable (pdata : PlatformData) : SlotInterface → Prop
  | .bus bus => pdata.hasRelease bus = true ∨ bus = .uart
  | _ => True

/-- No resource is released while it is not held, each one is released once before the slot is
unbound, and the gpios are reported when all four are held. -/
structure SlotOk (pdata : PlatformData) (s : SlotState) : Prop where
  misused : s.ledger.misused = []
  balanced : s.phase = .unbound → s.ledger.acquired.Perm s.ledger.released
  reports : ∀ held ∈ s.gpioReports, ∀ i, .gpio (pdata.gpio i) ∈ held
  alive : s.isDead = false

/-- The bus that an interface of the EEPROM asks for. -/
def EepromInterface.bus : EepromInterface → Option Bus
  | .sdio => some .sdio
  | .adc => some .adc
  | .pcm => some .pcm
  | .uart => some .uart
  | _ => none

/-- The first gpio can be had, and a bus that gets recorded has a release with its request. -/
def itemHealthy (pdata : PlatformData) (answers : Answers) (item : EepromInterface)
    (s : SlotState) : Prop :=
  (item = .gpio → answers.gpio firstGpio = .ok () ∧ .gpio (pdata.gpio firstGpio) ∉ s.ledger.held)
    ∧ ∀ bus, item.bus = some bus →
      if pdata.hasRequest bus then answers.requestBus = .ok () → pdata.hasRelease bus = true
      else bus = .uart ∧ pdata.hasRelease bus = false

/-- Whether the EEPROM has an interface, and memory for their list. -/
def EepromEnv.hasInterfaces (env : EepromEnv) : Bool :=
  env.interfaces.any fun items => !items.isEmpty

/-- Whether `eeprom_load` gives an EEPROM. -/
def EepromEnv.loads (env : EepromEnv) : Bool :=
  env.i2cNewDevice.isSome && env.hasHeader && env.hasInterfaces

/-- Reset and card detect can be had, an EEPROM with a header has an interface, and an EEPROM that
could not be powered is not missed. -/
def probeHealthy (pdata : PlatformData) (env : ProbeEnv) : Prop :=
  env.requestReset = .ok () ∧ env.requestCardDetect = .ok ()
    ∧ pdata.cardDetectGpio ≠ pdata.resetGpio
    ∧ (env.requestI2c = .ok () → env.cardPresent = true →
      (env.eeprom.i2cNewDevice.isSome → env.eeprom.hasHeader → env.eeprom.hasInterfaces)
        ∧ (env.eeprom.loads = false → env.directionOutput = .ok ()))

def slotHealthy (pdata : PlatformData) (s : SlotState) : SlotEvent → Prop
  | .probe env => s.phase = .unbound → env.slotAllocated = true → probeHealthy pdata env
  | .item answers => ∀ client ret item items, s.phase = .enumerating client ret (item :: items) →
    s.interfaces.length < maxInterfaces → itemHealthy pdata answers item s
  | .enumerated => ∀ client ret, s.phase = .enumerating client ret [] → ret = .ok ()
  | .remove => True

/-- The slot holds what its entries stand for, the essential resources and `extra`. -/
structure Owns (pdata : PlatformData) (s : SlotState) (extra : List Resource) : Prop where
  isDead : s.isDead = false
  i2cAdapter : s.i2cAdapter = true
  releasable : ∀ i ∈ s.interfaces, IsReleasable pdata i
  reports : ∀ held ∈ s.gpioReports, ∀ i, .gpio (pdata.gpio i) ∈ held
  holds : s.ledger.Holds (s.interfaces.flatMap (heldBy pdata) ++ (essential pdata ++ extra))

/-- Nothing is held. -/
structure Clear (pdata : PlatformData) (s : SlotState) : Prop where
  isDead : s.isDead = false
  reports : ∀ held ∈ s.gpioReports, ∀ i, .gpio (pdata.gpio i) ∈ held
  holds : s.ledger.Holds []

def SlotInv (pdata : PlatformData) (s : SlotState) : Prop :=
  match s.phase with
  | .unbound => Clear pdata s
  | .enumerating client _ _ => Owns pdata s [.i2cClient client]
  | .bound => Owns pdata s []

section Ownership

variable {pdata : PlatformData} {s t : SlotState} {extra extra' rest gs : List Resource}
  {r : Resource} {i : SlotInterface}

theorem Owns.withLedger {L : Ledger Resource} (h : Owns pdata s extra)
    (hL : L.Holds (s.interfaces.flatMap (heldBy pdata) ++ (essential pdata ++ extra'))) :
    Owns pdata { s with ledger := L } extra' :=
  ⟨h.isDead, h.i2cAdapter, h.releasable, h.reports, hL⟩

theorem Owns.acquire (h : Owns pdata s extra) (r : Resource) :
    Owns pdata (s.acquire r) (r :: extra) := by
  refine h.withLedger ((h.holds.acquire r).of_perm ?_)
  rw [← List.append_assoc, ← List.append_assoc]
  exact List.perm_middle.symm

theorem Owns.release (h : Owns pdata s (r :: extra)) : Owns pdata (s.release r) extra := by
  refine h.withLedger (h.holds.of_perm ?_).release
  rw [← List.append_assoc, ← List.append_assoc]
  exact List.perm_middle

theorem Owns.record (h : Owns pdata s (heldBy pdata i ++ extra)) (hi : IsReleasable pdata i) :
    Owns pdata (s.record i) extra := by
  refine ⟨h.isDead, h.i2cAdapter, ?_, h.reports, h.holds.of_perm ?_⟩
  · intro j hj
    rcases List.mem_append.mp hj with hj | hj
    · exact h.releasable j hj
    · rw [List.mem_singleton.mp hj]
      exact hi
  · rw [SlotState.record, List.flatMap_append, List.append_assoc, List.flatMap_singleton]
    exact (List.perm_append_comm_assoc _ _ _).append_left _

theorem releaseInterface_holds (hi : IsReleasable pdata i) (hdead : s.isDead = false)
    (h : s.ledger.Holds (heldBy pdata i ++ rest)) :
    (releaseInterface pdata s i).isDead = false ∧ (releaseInterface pdata s i).ledger.Holds rest
      ∧ (releaseInterface pdata s i).i2cAdapter = s.i2cAdapter
      ∧ (releaseInterface pdata s i).gpioReports = s.gpioReports := by
  cases i with
  | gpio => exact ⟨hdead, h.releaseAll, rfl, rfl⟩
  | i2c client => exact ⟨hdead, h.release, rfl, rfl⟩
  | spi device => exact ⟨hdead, h.release.release, rfl, rfl⟩
  | bus bus =>
    by_cases hrel : pdata.hasRelease bus = true
    · rw [heldBy, if_pos hrel] at h
      rw [releaseInterface, if_pos hrel]
      exact ⟨hdead, h.release, rfl, rfl⟩
    · rw [heldBy, if_neg hrel] at h
      rw [releaseInterface, if_neg hrel, if_pos (hi.resolve_left hrel)]
      exact ⟨hdead, h, rfl, rfl⟩
  | clk => exact ⟨hdead, h, rfl, rfl⟩
  | platform => exact ⟨hdead, h, rfl, rfl⟩

theorem releaseInterfaces_holds (is : List SlotInterface) (his : ∀ i ∈ is, IsReleasable pdata i)
    (hdead : s.isDead = false) (h : s.ledger.Holds (is.flatMap (heldBy pdata) ++ rest)) :
    (releaseInterfaces pdata is s).isDead = false
      ∧ (releaseInterfaces pdata is s).ledger.Holds rest
      ∧ (releaseInterfaces pdata is s).i2cAdapter = s.i2cAdapter
      ∧ (releaseInterfaces pdata is s).gpioReports = s.gpioReports := by
  induction is generalizing s with
  | nil => exact ⟨hdead, h, rfl, rfl⟩
  | cons i is ih =>
    rw [List.flatMap_cons, List.append_assoc] at h
    obtain ⟨hdead', hholds, hadapter, hreports⟩ :=
      releaseInterface_holds (his i (by simp)) hdead h
    obtain ⟨hdead'', hrest, hadapter', hreports'⟩ :=
      ih (fun j hj => his j (List.mem_cons_of_mem _ hj)) hdead' hholds
    rw [releaseInterfaces]
    simp only [hdead']
    exact ⟨hdead'', hrest, hadapter'.trans hadapter, hreports'.trans hreports⟩

theorem Owns.releaseResources (h : Owns pdata s extra) :
    (releaseResources pdata s).isDead = false ∧ (releaseResources pdata s).ledger.Holds extra
      ∧ (releaseResources pdata s).gpioReports = s.gpioReports := by
  obtain ⟨hdead, hholds, hadapter, hreports⟩ :=
    releaseInterfaces_holds s.interfaces h.releasable h.isDead h.holds
  unfold IotSlot.releaseResources
  simp only [hdead, hadapter, h.i2cAdapter]
  exact ⟨hdead, hholds.release.release.release, hreports⟩

/-- The driver core releases the gpios that are left. -/
theorem clear_unbind (hdead : s.isDead = false)
    (hreports : ∀ held ∈ s.gpioReports, ∀ i, .gpio (pdata.gpio i) ∈ held)
    (hgs : ∀ g ∈ gs, g.isGpio = true) (h : s.ledger.Holds gs) : Clear pdata (unbind s) := by
  have hall : s.ledger.held.filter Resource.isGpio = s.ledger.held :=
    List.filter_eq_self.mpr fun g hg => hgs g (h.held.mem_iff.mp hg)
  refine ⟨hdead, hreports, ?_⟩
  unfold unbind
  rw [hall]
  refine (h.of_perm ?_).releaseAll
  rw [List.append_nil]
  exact h.held.symm

end Ownership

section Adding

variable {pdata : PlatformData} {answers : Answers} {s t : SlotState}
  {L : Ledger Resource} {extra base gs : List Resource}

/-- What is left of an interface: nothing when it is recorded, or gpios at most. -/
def Added (pdata : PlatformData) (extra : List Resource) : Ret × SlotState → Prop
  | (.ok (), t) => Owns pdata t extra
  | (.error _, t) => ∃ gs, (∀ g ∈ gs, g.isGpio = true) ∧ Owns pdata t (extra ++ gs)

theorem Owns.added_error (h : Owns pdata s extra) (e : Errno) :
    Added pdata extra (.error e, s) :=
  ⟨[], by simp, by simpa using h⟩

theorem requestGpio_ok {n : Int} (hn : .gpio n ∉ L.held) :
    requestGpio L n (.ok ()) = (.ok (), L.acquire (.gpio n)) := if_neg hn

theorem requestGpio_cases (L : Ledger Resource) (n : Int) (answer : Ret) :
    requestGpio L n answer = (.ok (), L.acquire (.gpio n))
      ∨ ∃ e, requestGpio L n answer = (.error e, L) := by
  cases answer with
  | error e => exact .inr ⟨e, rfl⟩
  | ok =>
    by_cases hmem : .gpio n ∈ L.held
    · exact .inr ⟨.busy, if_pos hmem⟩
    · exact .inl (requestGpio_ok hmem)

/-- Behind the first gpio a failure gives that one back, and leaves others to the driver core. -/
theorem addGpioLoop_holds (answers : Answers) (gs : List Resource) (is : List (Fin 4))
    (his : ∀ i ∈ is, 0 < i) (hgs : ∀ g ∈ gs, g.isGpio = true)
    (h : L.Holds (.gpio (pdata.gpio 0) :: (gs ++ base))) :
    (∃ L', addGpioLoop pdata answers is L = (.ok (), L')
        ∧ L'.Holds (.gpio (pdata.gpio 0) ::
          (is.map (fun i => .gpio (pdata.gpio i)) ++ (gs ++ base))))
      ∨ ∃ e L' gs', addGpioLoop pdata answers is L = (.error e, L')
        ∧ (∀ g ∈ gs', g.isGpio = true) ∧ L'.Holds (gs' ++ base) := by
  induction is generalizing L gs with
  | nil => exact .inl ⟨L, rfl, h⟩
  | cons i is ih =>
    rcases requestGpio_cases L (pdata.gpio i) (answers.gpio i) with hreq | ⟨e, hreq⟩
    · have hholds : (L.acquire (.gpio (pdata.gpio i))).Holds
          (.gpio (pdata.gpio 0) :: ((.gpio (pdata.gpio i) :: gs) ++ base)) :=
        (h.acquire _).of_perm (.swap _ _ _)
      have hgs' : ∀ g ∈ Resource.gpio (pdata.gpio i) :: gs, g.isGpio = true := by
        simpa [Resource.isGpio] using hgs
      simp only [addGpioLoop, hreq]
      rcases ih _ (fun j hj => his j (List.mem_cons_of_mem _ hj)) hgs' hholds with
        ⟨L', hrun, hL'⟩ | hfail
      · refine .inl ⟨L', hrun, hL'.of_perm ?_⟩
        rw [List.cons_append, List.map_cons, List.cons_append]
        exact List.perm_middle.cons _
      · exact .inr hfail
    · simp only [addGpioLoop, hreq]
      rw [if_pos (his i (by simp))]
      exact .inr ⟨_, _, gs, rfl, hgs, h.release⟩

/-- With the first gpio to be had, all four are held or none is kept but for the driver core. -/
theorem Owns.addGpio (h : Owns pdata s extra) (hfirst : answers.gpio 0 = .ok ())
    (hfree : .gpio (pdata.gpio 0) ∉ s.ledger.held) :
    Added pdata extra (addGpio pdata answers s) := by
  have hloop := addGpioLoop_holds answers [] [1, 2, 3] (by decide) (by simp)
    (h.holds.acquire (.gpio (pdata.gpio 0)))
  have hrun : addGpioLoop pdata answers (List.finRange 4) s.ledger
      = addGpioLoop pdata answers [1, 2, 3] (s.ledger.acquire (.gpio (pdata.gpio 0))) := by
    change addGpioLoop pdata answers [0, 1, 2, 3] s.ledger = _
    rw [addGpioLoop, hfirst, requestGpio_ok hfree]
  unfold IotSlot.addGpio
  rw [hrun]
  rcases hloop with ⟨L', hL', hholds⟩ | ⟨e, L', gs', hL', hgs', hholds⟩
  · rw [hL']
    have hgpios : L'.Holds
        (pdata.gpios ++ (s.interfaces.flatMap (heldBy pdata) ++ (essential pdata ++ extra))) :=
      hholds
    have howns : Owns pdata { s with ledger := L' } (pdata.gpios ++ extra) := by
      refine h.withLedger (hgpios.of_perm ((List.perm_append_comm_assoc _ _ _).trans ?_))
      exact (List.perm_append_comm_assoc _ _ _).append_left _
    have hreported : Owns pdata { s with ledger := L', gpioReports := L'.held :: s.gpioReports }
        (heldBy pdata .gpio ++ extra) := by
      refine ⟨howns.isDead, howns.i2cAdapter, howns.releasable, ?_, howns.holds⟩
      intro held hmem i
      rcases List.mem_cons.mp hmem with rfl | hmem
      · exact hgpios.mem (List.mem_append_left _ (List.mem_map_of_mem (List.mem_finRange i)))
      · exact h.reports held hmem i
    exact hreported.record trivial
  · rw [hL']
    refine ⟨gs', hgs', h.withLedger (hholds.of_perm ?_)⟩
    rw [← List.append_assoc (essential pdata), ← List.append_assoc]
    exact List.perm_append_comm

theorem Owns.addI2c (h : Owns pdata s extra) : Added pdata extra (addI2c answers s) := by
  unfold IotSlot.addI2c
  cases answers.i2cNewDevice with
  | none => exact h.added_error _
  | some client => exact (h.acquire _).record (i := .i2c client) trivial

theorem Owns.addSpi (h : Owns pdata s extra) : Added pdata extra (addSpi answers s) := by
  unfold IotSlot.addSpi
  cases answers.requestSpi with
  | error e => exact h.added_error _
  | ok =>
    cases answers.spiNewDevice with
    | none => exact (h.acquire _).release.added_error _
    | some device => exact ((h.acquire _).acquire _).record (i := .spi device) trivial

theorem Owns.addBus (h : Owns pdata s extra) {bus : Bus}
    (hbus : if pdata.hasRequest bus then answers.requestBus = .ok () → pdata.hasRelease bus = true
      else bus = .uart ∧ pdata.hasRelease bus = false) :
    Added pdata extra (addBus pdata answers bus s) := by
  unfold IotSlot.addBus
  by_cases hreq : pdata.hasRequest bus = true
  · rw [if_pos hreq] at hbus ⊢
    cases hanswer : answers.requestBus with
    | error e => exact h.added_error _
    | ok =>
      have hrel := hbus hanswer
      refine Owns.record (i := .bus bus) ?_ (.inl hrel)
      rw [heldBy, if_pos hrel]
      exact h.acquire _
  · rw [if_neg hreq] at hbus ⊢
    refine Owns.record (i := .bus bus) ?_ (.inr hbus.1)
    rw [heldBy, if_neg (by simp [hbus.2])]
    exact h

/-- `Added` for a turn of the loop. -/
def Enumerated (pdata : PlatformData) (extra : List Resource) :
    Except Errno Ret × SlotState → Prop
  | (.ok _, t) => Owns pdata t extra
  | (.error _, t) => ∃ gs, (∀ g ∈ gs, g.isGpio = true) ∧ Owns pdata t (extra ++ gs)

theorem Added.enumerated {p : Ret × SlotState} (h : Added pdata extra p) :
    Enumerated pdata extra (p.1.map .ok, p.2) := by
  obtain ⟨_ | _, t⟩ := p <;> exact h

theorem Owns.enumerateItem (h : Owns pdata s extra) (ret : Ret) (item : EepromInterface)
    (hitem : s.interfaces.length < maxInterfaces → itemHealthy pdata answers item s) :
    Enumerated pdata extra (enumerateItem pdata answers ret item s) := by
  unfold IotSlot.enumerateItem
  split
  · exact ⟨[], by simp, by simpa using h⟩
  · next hlength =>
    obtain ⟨hgpio, hbus⟩ := hitem (by omega)
    cases item with
    | gpio => exact (h.addGpio (hgpio rfl).1 (hgpio rfl).2).enumerated
    | i2c => exact h.addI2c.enumerated
    | spi => exact h.addSpi.enumerated
    | sdio => exact (h.addBus (hbus .sdio rfl)).enumerated
    | adc => exact (h.addBus (hbus .adc rfl)).enumerated
    | pcm => exact (h.addBus (hbus .pcm rfl)).enumerated
    | uart => exact (h.addBus (hbus .uart rfl)).enumerated
    | usb => exact Owns.record (i := .clk) h trivial
    | clk => exact Owns.record (i := .clk) h trivial
    | plat => exact Owns.record (i := .platform) h trivial
    | other => exact h

end Adding

section Steps

variable {pdata : PlatformData} {env : ProbeEnv} {answers : Answers} {s t : SlotState}
  {e : SlotEvent} {extra : List Resource}

theorem Clear.inv (h : Clear pdata s) (hphase : s.phase = .unbound) : SlotInv pdata s := by
  rw [SlotInv, hphase]
  exact h

theorem Owns.setPhase (h : Owns pdata s extra) (phase : Phase) :
    Owns pdata { s with phase } extra :=
  ⟨h.isDead, h.i2cAdapter, h.releasable, h.reports, h.holds⟩

/-- A slot that owns nothing else can be released and let go. -/
theorem Owns.releaseAndUnbind {gs : List Resource} (h : Owns pdata s gs)
    (hgs : ∀ g ∈ gs, g.isGpio = true) : SlotInv pdata (releaseAndThen pdata s unbind) := by
  obtain ⟨hdead, hholds, hreports⟩ := h.releaseResources
  unfold releaseAndThen
  simp only [hdead]
  exact (clear_unbind hdead (by rw [hreports]; exact h.reports) hgs hholds).inv rfl

/-- So can one whose EEPROM is still loaded, and gpios that a failure left behind. -/
theorem Owns.releaseAndFail {gs : List Resource} {client : Nat} {e : Errno}
    (h : Owns pdata s ([.i2cClient client] ++ gs)) (hgs : ∀ g ∈ gs, g.isGpio = true) :
    SlotInv pdata
      (releaseAndThen pdata s fun s => endProbe (.error e) (eepromUnload client s)) := by
  obtain ⟨hdead, hholds, hreports⟩ := h.releaseResources
  unfold releaseAndThen
  simp only [hdead]
  have hunload : (eepromUnload client (IotSlot.releaseResources pdata s)).ledger.Holds gs :=
    hholds.release
  have hdead' : (eepromUnload client (IotSlot.releaseResources pdata s)).isDead = false := hdead
  refine (clear_unbind hdead' ?_ hgs hunload).inv rfl
  change ∀ held ∈ (IotSlot.releaseResources pdata s).gpioReports, _
  rw [hreports]
  exact h.reports

theorem Owns.eepromLoad (h : Owns pdata s extra) {env : EepromEnv}
    (henv : env.i2cNewDevice.isSome → env.hasHeader → env.hasInterfaces) :
    (∃ client items t, eepromLoad env s = (some (client, items), t)
        ∧ Owns pdata t (.i2cClient client :: extra))
      ∨ ∃ t, eepromLoad env s = (none, t) ∧ env.loads = false ∧ Owns pdata t extra := by
  unfold IotSlot.eepromLoad EepromEnv.loads
  rw [if_pos h.i2cAdapter]
  cases hnew : env.i2cNewDevice with
  | none => exact .inr ⟨s, rfl, rfl, h⟩
  | some client =>
    by_cases hheader : env.hasHeader = true
    · have hsome := henv (by simp [hnew]) hheader
      rw [EepromEnv.hasInterfaces] at hsome
      cases hlist : env.interfaces with
      | none => simp [hlist] at hsome
      | some items =>
        cases items with
        | nil => simp [hlist] at hsome
        | cons item items =>
          dsimp only
          rw [if_pos hheader]
          exact .inl ⟨client, item :: items, _, rfl, h.acquire _⟩
    · dsimp only
      rw [if_neg hheader]
      exact .inr ⟨_, rfl, by simp [hheader], (h.acquire _).release⟩

theorem Owns.enumerate (h : Owns pdata s [])
    (henv : env.cardPresent = true →
      (env.eeprom.i2cNewDevice.isSome → env.eeprom.hasHeader → env.eeprom.hasInterfaces)
        ∧ (env.eeprom.loads = false → env.directionOutput = .ok ())) :
    SlotInv pdata (enumerate env s) := by
  unfold IotSlot.enumerate
  by_cases hcard : env.cardPresent = true
  · rw [if_pos hcard]
    obtain ⟨hload, hpower⟩ := henv hcard
    rcases h.eepromLoad hload with ⟨client, items, t, hrun, ht⟩ | ⟨t, hrun, hno, ht⟩
    · rw [hrun]
      exact ht.setPhase (.enumerating client env.directionOutput items)
    · rw [hrun, hpower hno]
      exact ht.setPhase .bound
  · rw [if_neg hcard]
    exact h.setPhase .bound

/-- The essential resources are all held, or none of them. -/
theorem Clear.requestEssentialResources (h : Clear pdata s) (hslot : s.interfaces = [])
    (hadapter : s.i2cAdapter = false) (hreset : env.requestReset = .ok ())
    (hdetect : env.requestCardDetect = .ok ()) (hne : pdata.cardDetectGpio ≠ pdata.resetGpio) :
    (∃ t, requestEssentialResources pdata env s = (.ok (), t) ∧ env.requestI2c = .ok ()
        ∧ Owns pdata t [])
      ∨ ∃ e t, requestEssentialResources pdata env s = (.error e, t) ∧ Clear pdata t := by
  have hheld := List.perm_nil.mp h.holds.held
  have hfirst : .gpio pdata.resetGpio ∉ s.ledger.held := by simp [hheld]
  have hsecond : .gpio pdata.cardDetectGpio ∉ (s.ledger.acquire (.gpio pdata.resetGpio)).held := by
    simpa [Ledger.acquire, hheld] using hne
  have hgpios := (h.holds.acquire (.gpio pdata.resetGpio)).acquire (.gpio pdata.cardDetectGpio)
  unfold IotSlot.requestEssentialResources
  rw [hreset, hdetect, requestGpio_ok hfirst]
  dsimp only
  rw [requestGpio_ok hsecond]
  dsimp only
  cases hi2c : env.requestI2c with
  | ok =>
    refine .inl ⟨_, rfl, rfl, h.isDead, rfl, by simp [hslot], h.reports, ?_⟩
    dsimp only
    rw [hslot]
    exact hgpios.acquire .i2cAdapter
  | error e =>
    refine .inr ⟨e, _, rfl, ?_⟩
    unfold releaseResources
    dsimp only
    rw [hslot]
    simp only [releaseInterfaces, h.isDead, hadapter, Bool.false_eq_true, if_false]
    exact ⟨rfl, h.reports, hgpios.release.release⟩

theorem Clear.probe (h : Clear pdata s) (hphase : s.phase = .unbound)
    (henv : env.slotAllocated = true → probeHealthy pdata env) :
    SlotInv pdata (probe pdata env s) := by
  unfold IotSlot.probe
  by_cases halloc : env.slotAllocated = true
  · obtain ⟨hreset, hdetect, hne, hcard⟩ := henv halloc
    rw [if_pos halloc]
    have hclear : Clear pdata { s with i2cAdapter := false, interfaces := [] } :=
      ⟨h.isDead, h.reports, h.holds⟩
    rcases hclear.requestEssentialResources rfl rfl hreset hdetect hne with
      ⟨t, hrun, hi2c, ht⟩ | ⟨e, t, hrun, ht⟩
    · rw [hrun]
      exact ht.enumerate (hcard hi2c)
    · rw [hrun]
      exact (clear_unbind ht.isDead ht.reports (List.forall_mem_nil _) ht.holds).inv rfl
  · rw [if_neg halloc]
    exact h.inv hphase

theorem SlotInv.step (h : SlotInv pdata s) (hok : slotHealthy pdata s e)
    (hstep : slotStep pdata s e = some t) : SlotInv pdata t := by
  unfold slotStep at hstep
  split at hstep
  · cases hstep
  · split at hstep
    · next env hphase =>
      cases hstep
      rw [SlotInv, hphase] at h
      exact h.probe hphase (hok hphase)
    · cases hstep
      exact h
    · next answers client ret item items hphase =>
      rw [SlotInv, hphase] at h
      have hitem := h.enumerateItem ret item (hok client ret item items hphase)
      split at hstep
      · next ret' u hrun =>
        cases hstep
        rw [hrun] at hitem
        exact Owns.setPhase hitem (.enumerating client ret' items)
      · next err u hrun =>
        cases hstep
        rw [hrun] at hitem
        obtain ⟨gs, hgs, hu⟩ := hitem
        exact hu.releaseAndFail hgs
    · next client ret hphase =>
      cases hstep
      rw [SlotInv, hphase] at h
      rw [hok client ret hphase]
      exact Owns.setPhase (Owns.release h) .bound
    · next hphase =>
      cases hstep
      rw [SlotInv, hphase] at h
      exact Owns.releaseAndUnbind h (by simp)
    · cases hstep

theorem SlotInv.slotOk (h : SlotInv pdata s) : SlotOk pdata s := by
  cases hphase : s.phase with
  | unbound =>
    rw [SlotInv, hphase] at h
    exact ⟨h.holds.misused, fun _ => h.holds.settled, h.reports, h.isDead⟩
  | enumerating client ret items =>
    rw [SlotInv, hphase] at h
    exact ⟨h.holds.misused, by simp [hphase], h.reports, h.isDead⟩
  | bound =>
    rw [SlotInv, hphase] at h
    exact ⟨h.holds.misused, by simp [hphase], h.reports, h.isDead⟩

/-- While the requests that the driver does not unwind for succeed, every resource is given back
once. -/
theorem slotOk_of_healthy (h : (slotMachine pdata).Reached (slotHealthy pdata) s) :
    SlotOk pdata s := by
  have hinv : SlotInv pdata s := by
    refine h.invariant _ ?_ fun s e t hinv hok hstep => hinv.step hok hstep
    rintro _ rfl
    exact Clear.inv ⟨rfl, by simp, Ledger.holds_empty⟩ rfl
  exact hinv.slotOk

end Steps

section Failure

def smallPdata : PlatformData where
  gpio i := i
  resetGpio := 10
  cardDetectGpio := 11
  hasRequest _ := true
  hasRelease _ := true

/-- A probe that finds a card with these interfaces. -/
def smallProbe (interfaces : List EepromInterface) : ProbeEnv where
  slotAllocated := true
  requestReset := .ok ()
  requestCardDetect := .ok ()
  requestI2c := .ok ()
  cardPresent := true
  directionOutput := .ok ()
  eeprom := ⟨some 0, true, some interfaces⟩

/-- The first gpio is held by someone else. -/
def busyAnswers : Answers where
  gpio i := if i = firstGpio then .error .busy else .ok ()
  i2cNewDevice := none
  requestSpi := .ok ()
  spiNewDevice := none
  requestBus := .ok ()

/-- A probe whose card detect gpio cannot power the EEPROM. -/
def unpoweredProbe : ProbeEnv :=
  { smallProbe [] with directionOutput := .error (.code 5), eeprom := ⟨none, false, none⟩ }

/-- Every request for an interface succeeds. -/
def freeAnswers : Answers where
  gpio _ := .ok ()
  i2cNewDevice := some 1
  requestSpi := .ok ()
  spiNewDevice := some 2
  requestBus := .ok ()

/-- A card with three interfaces, from its probe to its remove. -/
def cardEvents : List SlotEvent :=
  [.probe (smallProbe [.gpio, .spi, .sdio]), .item freeAnswers, .item freeAnswers,
    .item freeAnswers, .enumerated, .remove]

theorem itemHealthy_small {item : EepromInterface} {s : SlotState}
    (h : item = .gpio → .gpio 0 ∉ s.ledger.held) :
    itemHealthy smallPdata freeAnswers item s :=
  ⟨fun hitem => ⟨rfl, h hitem⟩, fun _ _ => by simp [smallPdata]⟩

theorem slotHealthy_item {pdata : PlatformData} {answers : Answers} {s : SlotState} {client : Nat}
    {ret : Ret} {item : EepromInterface} {items : List EepromInterface}
    (hphase : s.phase = .enumerating client ret (item :: items))
    (h : itemHealthy pdata answers item s) : slotHealthy pdata s (.item answers) := by
  intro client' ret' item' items' hphase' _
  cases hphase.symm.trans hphase'
  exact h

theorem slotOk_of_healthy_card : ∃ s,
    Machine.runEvents (slotStep smallPdata) cardEvents {} = some s ∧ s.phase = .unbound
      ∧ s.ledger.released.length = 11 ∧ SlotOk smallPdata s := by
  have hinit : (slotMachine smallPdata).Reached (slotHealthy smallPdata) {} := .init rfl
  have hprobed := hinit.step (a := SlotEvent.probe (smallProbe [.gpio, .spi, .sdio]))
    (fun _ _ => ⟨rfl, rfl, by decide, fun _ _ => ⟨fun _ _ => rfl, fun _ => rfl⟩⟩) rfl
  have hgpio := hprobed.step (a := SlotEvent.item freeAnswers)
    (slotHealthy_item rfl (itemHealthy_small (by decide))) rfl
  have hspi := hgpio.step (a := SlotEvent.item freeAnswers)
    (slotHealthy_item rfl (itemHealthy_small (by decide))) rfl
  have hsdio := hspi.step (a := SlotEvent.item freeAnswers)
    (slotHealthy_item rfl (itemHealthy_small (by decide))) rfl
  have hbound := hsdio.step (a := SlotEvent.enumerated) (fun _ _ hphase => by cases hphase; rfl) rfl
  have hremoved := hbound.step (a := SlotEvent.remove) trivial rfl
  exact ⟨_, rfl, rfl, rfl, slotOk_of_healthy hremoved⟩

/-- Without its first gpio the interface is reported, and the gpio released; a probe fails with the
I2C adapter held; an EEPROM without interfaces stays registered behind the remove. -/
theorem slotOk_fails :
    (∃ s, (slotMachine smallPdata).Reached (fun _ _ => True) s
        ∧ s.ledger.misused = [.gpio 0] ∧ ¬ SlotOk smallPdata s)
      ∧ (∃ s, (slotMachine smallPdata).Reached (fun _ _ => True) s
        ∧ s.phase = .unbound ∧ s.ledger.held = [.i2cAdapter] ∧ ¬ SlotOk smallPdata s)
      ∧ ∃ s, (slotMachine smallPdata).Reached (fun _ _ => True) s
        ∧ s.phase = .unbound ∧ s.ledger.held = [.i2cClient 0] ∧ ¬ SlotOk smallPdata s := by
  have hinit : (slotMachine smallPdata).Reached (fun _ _ => True) {} := .init rfl
  refine ⟨⟨_, hinit.runEvents id [.probe (smallProbe [.gpio]), .item busyAnswers,
      .enumerated, .remove] rfl, rfl, fun h => ?_⟩,
    ⟨_, hinit.runEvents id [.probe unpoweredProbe] rfl, rfl, rfl, fun h => ?_⟩,
    ⟨_, hinit.runEvents id [.probe (smallProbe []), .remove] rfl, rfl, rfl, fun h => ?_⟩⟩
  · cases h.misused
  · have := (h.balanced rfl).length_eq
    revert this
    decide
  · have := (h.balanced rfl).length_eq
    revert this
    decide

end Failure

end MangOH.IotSlot
