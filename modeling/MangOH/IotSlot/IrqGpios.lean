import Mathlib.Data.Nat.Find
import MangOH.IotSlot.Balance
import MangOH.IotSlot.Records

/-! What an image can make the slot read: records behind the image, and gpios behind its table. -/
namespace MangOH.IotSlot
open Lib

variable {image : Image} {pdata : PlatformData} {answer : Answers} {answers : Nat → Answers}
  {s s' : SlotState} {ret ret' : Ret} {item : EepromInterface} {records : List Nat}
  {L L' : Ledger Resource} {k t : Nat}

/-- An index of the table of gpios, or none. -/
def IrqFits (index : UInt8) : Prop := index = irqGpioUnused ∨ index.toNat < 4

/-- The index of the interrupt's gpio, for a record that has one. -/
def Image.irqIndex (image : Image) (k : Nat) : Option UInt8 :=
  match eepromInterface (image.type k) with
  | .i2c => some (image.byte k 2)
  | .spi => some (image.byte k 1)
  | _ => none

/-- How many of the records are for the gpios of the slot. -/
def Image.gpioRecords (image : Image) (records : List Nat) : Nat :=
  records.countP fun k => eepromInterface (image.type k) = .gpio

/-- The slot gets as far as this record, if what it asks for is there: it has room left, and was
asked for its gpios once at most. -/
def Image.Reaches (image : Image) (k : Nat) : Prop :=
  image.known (List.range k) < maxInterfaces ∧ image.gpioRecords (List.range k) ≤ 1

/-- The records that the slot can get to have their interrupts within the table. -/
def Image.IrqsFit (image : Image) (t : Nat) : Prop :=
  ∀ k < t, image.Reaches k → ∀ index ∈ image.irqIndex k, IrqFits index

/-- The records of an image are loaded within a number of rounds and from within the image, and the
slot goes through them without a fault. -/
def ScanBounded (image : Image) : Prop :=
  ∀ kzalloc, ∃ n, ∀ rounds, n ≤ rounds →
    image.loadInterfaces kzalloc rounds ≠ .error .endless ∧
    image.loadInterfaces kzalloc rounds ≠ .error .outsideImage ∧
    ∀ count loaded, image.loadInterfaces kzalloc rounds = .ok (count, loaded) →
      ∀ pdata answers ret s, s.interfaces = [] →
        ∃ r, enumerateRecords pdata image answers loaded ret s = .ok r

/-! ### Looking up an interrupt -/

theorem irqGpio_isOk (pdata : PlatformData) {index : UInt8} :
    (∃ gpio, irqGpio pdata index = .ok gpio) ↔ IrqFits index := by
  unfold irqGpio IrqFits
  split
  · next heq => simp [heq]
  · next hne =>
    split
    · next hlt => simp [hlt]
    · next hge => simp [hne, hge]

/-- The types whose records name an interrupt. -/
theorem type_of_interface {type : UInt8} :
    (eepromInterface type = .i2c → type = 1) ∧ (eepromInterface type = .spi → type = 2) := by
  have hcases : ∀ i : Nat, ([EepromInterface.gpio, .i2c, .spi, .usb, .sdio, .adc, .pcm, .clk, .uart,
      .plat].getD i .other = .i2c → i = 1) ∧ ([EepromInterface.gpio, .i2c, .spi, .usb, .sdio, .adc,
      .pcm, .clk, .uart, .plat].getD i .other = .spi → i = 2) := by
    intro i
    rcases i with _ | _ | _ | _ | _ | _ | _ | _ | _ | _ | i <;> simp
  constructor
  · intro h
    exact UInt8.toNat_inj.mp ((hcases type.toNat).1 h)
  · intro h
    exact UInt8.toNat_inj.mp ((hcases type.toNat).2 h)

theorem lookUp_ok (hv : image.version = .ok version10) (hk : k < maxRecords)
    (hfits : ∀ index ∈ image.irqIndex k, IrqFits index) :
    lookUp pdata image answer k (eepromInterface (image.type k)) = .ok () := by
  unfold Image.irqIndex at hfits
  cases hi : eepromInterface (image.type k) with
  | i2c =>
    rw [hi] at hfits
    obtain ⟨gpio, hgpio⟩ := (irqGpio_isOk pdata).mpr (hfits _ rfl)
    simp only [lookUp, Image.i2cIrqGpio, ifType_eq hv hk, type_of_interface.1 hi, bind, Except.bind,
      if_true, field_eq hv hk (show 2 < recordSize by decide), hgpio]
    rfl
  | spi =>
    rw [hi] at hfits
    obtain ⟨gpio, hgpio⟩ := (irqGpio_isOk pdata).mpr (hfits _ rfl)
    unfold lookUp
    cases answer.requestSpi with
    | error e => rfl
    | ok _ =>
      simp only [Image.spiIrqGpio, ifType_eq hv hk, type_of_interface.2 hi, bind, Except.bind,
        if_true, field_eq hv hk (show 1 < recordSize by decide), hgpio]
      rfl
  | _ => rfl

/-- With an SPI master to be had, an interrupt that does not fit is a fault. -/
theorem lookUp_fault (hv : image.version = .ok version10) (hk : k < maxRecords)
    (hspi : answer.requestSpi = .ok ()) {index : UInt8} (hindex : index ∈ image.irqIndex k)
    (hfits : ¬ IrqFits index) :
    ¬ ∃ u, lookUp pdata image answer k (eepromInterface (image.type k)) = .ok u := by
  unfold Image.irqIndex at hindex
  rintro ⟨u, hlook⟩
  cases hi : eepromInterface (image.type k) with
  | i2c =>
    rw [hi] at hindex hlook
    cases hindex
    simp only [lookUp, Image.i2cIrqGpio, ifType_eq hv hk, type_of_interface.1 hi, bind, Except.bind,
      if_true, field_eq hv hk (show 2 < recordSize by decide)] at hlook
    split at hlook
    · cases hlook
    · next gpio hgpio => exact hfits ((irqGpio_isOk pdata).mp ⟨gpio, hgpio⟩)
  | spi =>
    rw [hi] at hindex hlook
    cases hindex
    simp only [lookUp, hspi, Image.spiIrqGpio, ifType_eq hv hk, type_of_interface.2 hi, bind,
      Except.bind, if_true, field_eq hv hk (show 1 < recordSize by decide)] at hlook
    split at hlook
    · cases hlook
    · next gpio hgpio => exact hfits ((irqGpio_isOk pdata).mp ⟨gpio, hgpio⟩)
  | _ =>
    rw [hi] at hindex
    cases hindex

/-! ### The gpios of the slot are asked for once -/

/-- Whether the last gpio of the slot is held: it is once all of them were had. -/
def taken (pdata : PlatformData) (s : SlotState) : Nat :=
  if .gpio (pdata.gpio (Fin.last 3)) ∈ s.ledger.held then 1 else 0

theorem taken_le_one : taken pdata s ≤ 1 := by
  unfold taken
  split <;> omega

theorem taken_mono (h : ∀ r ∈ s.ledger.held, r ∈ s'.ledger.held) :
    taken pdata s ≤ taken pdata s' := by
  unfold taken
  split
  · next hmem => rw [if_pos (h _ hmem)]
  · omega

/-- Gpios behind the first one are had only when they are free. -/
theorem addGpioLoop_ok {is : List (Fin 4)} (h : addGpioLoop pdata answer is L = (.ok (), L')) :
    (∀ r ∈ L.held, r ∈ L'.held) ∧ ∀ i ∈ is, 0 < i →
      .gpio (pdata.gpio i) ∉ L.held ∧ .gpio (pdata.gpio i) ∈ L'.held := by
  induction is generalizing L with
  | nil =>
    cases h
    exact ⟨fun r hr => hr, by simp⟩
  | cons i is ih =>
    rw [addGpioLoop] at h
    rcases requestGpio_cases L (pdata.gpio i) (answer.gpio i) with hreq | ⟨e, hreq⟩
    · rw [hreq] at h
      obtain ⟨hmono, hlater⟩ := ih h
      have hheld : ∀ r ∈ L.held, r ∈ L'.held := fun r hr => hmono r (List.mem_cons_of_mem _ hr)
      refine ⟨hheld, fun j hj hpos => ?_⟩
      rcases List.mem_cons.mp hj with rfl | hj
      · refine ⟨fun hmem => ?_, hmono _ List.mem_cons_self⟩
        unfold requestGpio at hreq
        split at hreq
        · rw [if_pos hmem] at hreq
          cases hreq
        · cases hreq
      · obtain ⟨hfree, hhad⟩ := hlater j hj hpos
        exact ⟨fun hmem => hfree (List.mem_cons_of_mem _ hmem), hhad⟩
    · rw [hreq] at h
      dsimp only at h
      split at h
      · cases h
      · next hzero =>
        obtain ⟨hmono, hlater⟩ := ih h
        refine ⟨hmono, fun j hj hpos => ?_⟩
        rcases List.mem_cons.mp hj with rfl | hj
        · exact absurd hpos hzero
        · exact hlater j hj hpos

theorem taken_addGpio (h : addGpio pdata answer s = (.ok (), s')) :
    1 + taken pdata s ≤ taken pdata s' := by
  unfold addGpio at h
  split at h
  · next L' hloop =>
    cases h
    obtain ⟨hfree, hhad⟩ := (addGpioLoop_ok hloop).2 (Fin.last 3) (List.mem_finRange _) (by decide)
    unfold taken
    rw [if_neg hfree]
    exact (if_pos hhad).ge
  · cases h

/-- The gpios are not had twice. -/
theorem taken_enumerateItem (h : enumerateItem pdata answer ret item s = (.ok ret', s')) :
    (if item = .gpio then 1 else 0) + taken pdata s ≤ taken pdata s' := by
  obtain ⟨-, ⟨rfl, hgpio⟩ | ⟨hother, -, hadds⟩ | ⟨rfl, rfl⟩⟩ := enumerateItem_ok h
  · exact taken_addGpio hgpio
  · rw [if_neg hother, Nat.zero_add]
    exact taken_mono hadds.held
  · simp

theorem taken_enumerateRecords (hv : image.version = .ok version10)
    (hrecords : ∀ k ∈ records, k < maxRecords)
    (h : enumerateRecords pdata image answers records ret s = .ok (.ok ret', s')) :
    image.gpioRecords records + taken pdata s ≤ taken pdata s' := by
  induction records generalizing ret s with
  | nil =>
    cases h
    simp [Image.gpioRecords]
  | cons k records ih =>
    rw [enumerateRecords] at h
    cases hk : enumerateRecord pdata image (answers k) ret k s with
    | error e =>
      rw [hk] at h
      cases h
    | ok r =>
      obtain ⟨_ | ret₁, s₁⟩ := r
      · rw [hk] at h
        cases h
      · rw [hk] at h
        have hstep := taken_enumerateItem (enumerateRecord_ok hv (hrecords k (by simp)) hk)
        have hrest := ih (fun j hj => hrecords j (List.mem_cons_of_mem _ hj)) h
        unfold Image.gpioRecords at hrest ⊢
        rw [List.countP_cons]
        simp only [decide_eq_true_eq]
        omega

/-- A slot that starts without an interface gets no further than to the records it reaches. -/
theorem reaches_of_enumerated (hv : image.version = .ok version10) (hk : k < maxRecords)
    (hs : s.interfaces = []) (hroom : s'.interfaces.length < maxInterfaces)
    (h : enumerateRecords pdata image answers (List.range k) ret s = .ok (.ok ret', s')) :
    image.Reaches k := by
  have hrecords : ∀ j ∈ List.range k, j < maxRecords := fun j hj =>
    Nat.lt_trans (List.mem_range.mp hj) hk
  have hlen := length_enumerateRecords hv hrecords h
  have htaken := taken_enumerateRecords hv hrecords h
  have hone : taken pdata s' ≤ 1 := taken_le_one
  rw [hs, List.length_nil, Nat.zero_add] at hlen
  exact ⟨hlen ▸ hroom, by omega⟩

/-! ### An image that is bounded -/

/-- A record is gone through without a fault if its interrupt fits, or if it is refused. -/
theorem enumerateRecord_isOk (pdata : PlatformData) (answer : Answers) (ret : Ret) (s : SlotState)
    (hv : image.version = .ok version10) (hk : k < maxRecords)
    (hfits : s.interfaces.length < maxInterfaces → ∀ index ∈ image.irqIndex k, IrqFits index) :
    ∃ r, enumerateRecord pdata image answer ret k s = .ok r := by
  unfold enumerateRecord
  split
  · exact ⟨_, rfl⟩
  · next hroom =>
    rw [ifType_eq hv hk]
    simp only [bind, Except.bind, lookUp_ok hv hk (hfits (Nat.lt_of_not_le hroom))]
    exact ⟨_, rfl⟩

/-- The slot goes through the records of an image that fits without a fault. -/
theorem enumerateRecords_isOk (pdata : PlatformData) (answers : Nat → Answers) (ret : Ret)
    (hv : image.version = .ok version10) (hfits : image.IrqsFit t) (hs : s.interfaces = [])
    (hk : k ≤ t) (ht : t ≤ maxRecords) :
    ∃ r, enumerateRecords pdata image answers (List.range k) ret s = .ok r := by
  induction k with
  | zero => exact ⟨_, rfl⟩
  | succ k ih =>
    have hlt : k < maxRecords := by omega
    obtain ⟨⟨_ | ret₁, s₁⟩, hrun⟩ := ih (by omega)
    · rw [List.range_succ, enumerateRecords_append, hrun]
      exact ⟨_, rfl⟩
    · obtain ⟨⟨_ | ret₂, s₂⟩, hrecord⟩ := enumerateRecord_isOk pdata (answers k) ret₁ s₁
        hv hlt fun hroom => hfits k (by omega) (reaches_of_enumerated hv hlt hs hroom hrun)
      all_goals
        rw [List.range_succ, enumerateRecords_append, hrun]
        simp only [bind, Except.bind, enumerateRecords, hrecord]
        exact ⟨_, rfl⟩

theorem enumerateRecords_ended (pdata : PlatformData) (answers : Nat → Answers) (ret : Ret)
    (hv : image.version = .ok version10) (hend : image.EndsAt t) (hfits : image.IrqsFit t)
    (hs : s.interfaces = []) (ht : t < maxRecords) :
    ∃ r, enumerateRecords pdata image answers (List.range (t + 1)) ret s = .ok r := by
  obtain ⟨⟨_ | ret₁, s₁⟩, hrun⟩ := enumerateRecords_isOk pdata answers ret hv hfits hs le_rfl ht.le
  · rw [List.range_succ, enumerateRecords_append, hrun]
    exact ⟨_, rfl⟩
  · exact ⟨_, enumerateRecords_endsAt hv hend ht hs hrun⟩

theorem scanBounded_of_ends (hv : image.version = .ok version10) (hend : image.EndsAt t)
    (hfits : image.IrqsFit t) (ht : t < maxRecords) : ScanBounded image := by
  intro kzalloc
  refine ⟨maxRecords + 1, fun rounds hrounds => ?_⟩
  rcases loadInterfaces_endsAt kzalloc hv hend ht hrounds with hload | ⟨-, -, hload⟩
  · rw [hload]
    refine ⟨by simp, by simp, fun count loaded heq pdata answers ret s hs => ?_⟩
    split at heq
    · cases heq
      exact ⟨_, rfl⟩
    · cases heq
      exact enumerateRecords_ended pdata answers ret hv hend hfits hs ht
  · rw [hload]
    refine ⟨by simp, by simp, fun count loaded heq pdata answers ret s hs => ?_⟩
    cases heq
    exact ⟨_, rfl⟩

/-! ### A card that is given all it asks for -/

/-- All that is asked for is there. -/
def granted : Answers where
  gpio _ := .ok ()
  i2cNewDevice := some 0
  requestSpi := .ok ()
  spiNewDevice := some 0
  requestBus := .ok ()

/-- A slot with gpios of its own. -/
def fourGpios : PlatformData where
  gpio i := i.val
  resetGpio := 4
  cardDetectGpio := 5
  hasRequest _ := true
  hasRelease _ := true

/-- No gpio is held. -/
def NoGpioHeld (s : SlotState) : Prop := ∀ r ∈ s.ledger.held, r.isGpio = false

theorem noGpioHeld_acquire {r : Resource} (hr : r.isGpio = false) (h : NoGpioHeld s) :
    NoGpioHeld (s.acquire r) := by
  intro r' hr'
  rcases List.mem_cons.mp hr' with rfl | hr'
  · exact hr
  · exact h r' hr'

theorem addGpioLoop_granted {is : List (Fin 4)} (hnodup : is.Nodup)
    (hfree : ∀ i ∈ is, .gpio (fourGpios.gpio i) ∉ L.held) :
    ∃ L', addGpioLoop fourGpios granted is L = (.ok (), L') := by
  induction is generalizing L with
  | nil => exact ⟨L, rfl⟩
  | cons i is ih =>
    obtain ⟨hi, hnodup⟩ := List.nodup_cons.mp hnodup
    have hrequest : requestGpio L (fourGpios.gpio i) (granted.gpio i) =
        (.ok (), L.acquire (.gpio (fourGpios.gpio i))) := by
      simp only [requestGpio, granted, if_neg (hfree i List.mem_cons_self)]
    simp only [addGpioLoop, hrequest]
    apply ih hnodup
    intro j hj hmem
    rcases List.mem_cons.mp hmem with heq | hmem
    · simp only [fourGpios, Resource.gpio.injEq] at heq
      have hij : j = i := Fin.ext (by omega)
      exact hi (hij ▸ hj)
    · exact hfree j (List.mem_cons_of_mem _ hj) hmem

theorem enumerateItem_granted (ret : Ret) (hroom : s.interfaces.length < maxInterfaces)
    (hfree : item = .gpio → NoGpioHeld s) :
    ∃ ret' s', enumerateItem fourGpios granted ret item s = (.ok ret', s') ∧
      (item ≠ .gpio → NoGpioHeld s → NoGpioHeld s') := by
  unfold enumerateItem
  rw [if_neg (Nat.not_le.mpr hroom)]
  cases item with
  | gpio =>
    obtain ⟨L', hloop⟩ := addGpioLoop_granted (List.nodup_finRange 4) fun i _ hmem =>
      Bool.noConfusion (hfree rfl _ hmem)
    simp only [addGpio, hloop]
    exact ⟨_, _, rfl, fun hne => absurd rfl hne⟩
  | i2c => exact ⟨_, _, rfl, fun _ h => noGpioHeld_acquire rfl h⟩
  | spi => exact ⟨_, _, rfl, fun _ h => noGpioHeld_acquire rfl (noGpioHeld_acquire rfl h)⟩
  | sdio | adc | pcm | uart => exact ⟨_, _, rfl, fun _ h => noGpioHeld_acquire rfl h⟩
  | usb | clk | plat | other => exact ⟨_, _, rfl, fun _ h => h⟩

/-- With room left, a record without a fault had its interrupt looked up, and is taken up. -/
theorem enumerateRecord_room {r : Except Errno Ret × SlotState}
    (hv : image.version = .ok version10) (hk : k < maxRecords)
    (hroom : s.interfaces.length < maxInterfaces)
    (h : enumerateRecord pdata image answer ret k s = .ok r) :
    (∃ u, lookUp pdata image answer k (eepromInterface (image.type k)) = .ok u) ∧
      r = enumerateItem pdata answer ret (eepromInterface (image.type k)) s := by
  unfold enumerateRecord at h
  rw [if_neg (Nat.not_le.mpr hroom), ifType_eq hv hk] at h
  simp only [bind, Except.bind] at h
  split at h
  · cases h
  · next u hlook => exact ⟨⟨u, hlook⟩, (Except.ok.inj h).symm⟩

/-- The last of the records is gone through from where the ones before it lead to. -/
theorem enumerateRecord_isOk_of_run
    (hok : ∃ r, enumerateRecords pdata image answers (List.range (k + 1)) ret s = .ok r)
    (hrun : enumerateRecords pdata image answers (List.range k) ret s = .ok (.ok ret', s')) :
    ∃ r, enumerateRecord pdata image (answers k) ret' k s' = .ok r := by
  obtain ⟨r, hr⟩ := hok
  rw [List.range_succ, enumerateRecords_append, hrun] at hr
  simp only [bind, Except.bind, enumerateRecords] at hr
  cases hrecord : enumerateRecord pdata image (answers k) ret' k s' with
  | error e =>
    rw [hrecord] at hr
    cases hr
  | ok r => exact ⟨r, rfl⟩

theorem known_succ : image.known (List.range (k + 1)) =
    image.known (List.range k) + if eepromInterface (image.type k) = .other then 0 else 1 := by
  rw [Image.known, Image.known, List.range_succ, List.countP_append, List.countP_singleton]
  by_cases hother : eepromInterface (image.type k) = .other <;> simp [hother]

theorem gpioRecords_succ : image.gpioRecords (List.range (k + 1)) =
    image.gpioRecords (List.range k) +
      if eepromInterface (image.type k) = .gpio then 1 else 0 := by
  rw [Image.gpioRecords, Image.gpioRecords, List.range_succ, List.countP_append,
    List.countP_singleton]
  by_cases hgpio : eepromInterface (image.type k) = .gpio <;> simp [hgpio]

/-- What is gone through without a fault is so up to any record. -/
theorem enumerateRecords_isOk_le (hk : k ≤ t)
    (h : ∃ r, enumerateRecords pdata image answers (List.range t) ret s = .ok r) :
    ∃ r, enumerateRecords pdata image answers (List.range k) ret s = .ok r := by
  obtain ⟨r, hr⟩ := h
  obtain ⟨d, rfl⟩ := Nat.exists_eq_add_of_le hk
  rw [List.range_add, enumerateRecords_append] at hr
  cases hrun : enumerateRecords pdata image answers (List.range k) ret s with
  | error e =>
    rw [hrun] at hr
    cases hr
  | ok r => exact ⟨r, rfl⟩

/-- With all it asks for, the slot gets to every record that it can get to. -/
theorem enumerateRecords_granted (hv : image.version = .ok version10) (hk : k < maxRecords)
    (hreach : image.Reaches k)
    (hok : ∃ r, enumerateRecords fourGpios image (fun _ => granted) (List.range k) (.ok ()) {} =
      .ok r) :
    ∃ ret' s', enumerateRecords fourGpios image (fun _ => granted) (List.range k) (.ok ()) {} =
        .ok (.ok ret', s') ∧ (image.gpioRecords (List.range k) = 0 → NoGpioHeld s') := by
  induction k with
  | zero => exact ⟨_, _, rfl, fun _ r hr => by cases hr⟩
  | succ k ih =>
    obtain ⟨hroom, hgpio⟩ := hreach
    rw [known_succ] at hroom
    rw [gpioRecords_succ] at hgpio
    obtain ⟨ret₁, s₁, hrun, hfree⟩ := ih (by omega) ⟨by omega, by omega⟩
      (enumerateRecords_isOk_le (Nat.le_succ k) hok)
    have hlen := length_enumerateRecords hv
      (fun j hj => Nat.lt_trans (List.mem_range.mp hj) (by omega)) hrun
    rw [List.length_nil, Nat.zero_add] at hlen
    have hroom₁ : s₁.interfaces.length < maxInterfaces := by omega
    obtain ⟨r, hrecord⟩ := enumerateRecord_isOk_of_run hok hrun
    obtain ⟨-, rfl⟩ := enumerateRecord_room hv (by omega) hroom₁ hrecord
    obtain ⟨ret₂, s₂, hitem, hkept⟩ := enumerateItem_granted ret₁ hroom₁
      fun (heq : eepromInterface (image.type k) = .gpio) =>
        hfree (by rw [if_pos heq] at hgpio; omega)
    refine ⟨ret₂, s₂, ?_, fun hnone => ?_⟩
    · rw [List.range_succ, enumerateRecords_append, hrun]
      simp only [bind, Except.bind, enumerateRecords, hrecord, hitem]
    · rw [gpioRecords_succ] at hnone
      refine hkept (fun heq => ?_) (hfree (by omega))
      rw [if_pos heq] at hnone
      omega

/-- A record that the slot can get to has its interrupt looked up, if all it asks for is there. -/
theorem irqFits_of_run (hv : image.version = .ok version10) (hk : k < t) (ht : t ≤ maxRecords)
    (hreach : image.Reaches k)
    (hok : ∃ r, enumerateRecords fourGpios image (fun _ => granted) (List.range t) (.ok ()) {} =
      .ok r) : ∀ index ∈ image.irqIndex k, IrqFits index := by
  intro index hindex
  by_contra hfits
  have hlt : k < maxRecords := Nat.lt_of_lt_of_le hk ht
  obtain ⟨ret₁, s₁, hrun, -⟩ := enumerateRecords_granted hv hlt hreach
    (enumerateRecords_isOk_le hk.le hok)
  obtain ⟨r, hrecord⟩ := enumerateRecord_isOk_of_run (enumerateRecords_isOk_le hk hok) hrun
  have hlen := length_enumerateRecords hv
    (fun j hj => Nat.lt_trans (List.mem_range.mp hj) hlt) hrun
  rw [List.length_nil, Nat.zero_add] at hlen
  obtain ⟨hlook, -⟩ := enumerateRecord_room hv hlt (hlen ▸ hreach.1) hrecord
  exact lookUp_fault hv hlt rfl hindex hfits hlook

/-! ### The images that are bounded -/

theorem version_of_hasHeader (hheader : image.hasHeader = true) :
    ∃ v, image.version = .ok v := by
  have hread : ∀ {offset}, offset < eepromSize → ∃ byte, image.read offset = .ok byte :=
    fun hlt => ⟨_, read_eq hlt⟩
  obtain ⟨high, hhigh⟩ := hread (show 2 < eepromSize by decide)
  obtain ⟨low, hlow⟩ := hread (show 3 < eepromSize by decide)
  rw [Image.version, if_pos hheader, hhigh, hlow]
  exact ⟨_, rfl⟩

/-- An image of another version is not gone through. -/
theorem loadInterfaces_version {v : Nat} {kzalloc : Nat → Bool} {rounds : Nat}
    (hversion : image.version = .ok v) (hv : v ≠ version10) :
    image.loadInterfaces kzalloc rounds = .error .bug := by
  simp only [Image.loadInterfaces, Image.ifFirst, Image.ifType, Image.field, hversion, bind,
    Except.bind, if_neg hv]

theorem exists_endsAt (h : ∃ t < maxRecords, image.type t = ifLast) :
    ∃ t < maxRecords, image.EndsAt t := by
  obtain ⟨t, ht, hlast⟩ := h
  have hex : ∃ t, image.type t = ifLast := ⟨t, hlast⟩
  refine ⟨Nat.find hex, Nat.lt_of_le_of_lt (Nat.find_min' hex hlast) ht, ?_, Nat.find_spec hex⟩
  intro k hk
  exact Nat.find_min hex hk

/-- A bounded image of the known version has a record of the last type, and interrupts that fit. -/
theorem ends_of_scanBounded (hv : image.version = .ok version10) (h : ScanBounded image) :
    ∃ t < maxRecords, image.EndsAt t ∧ image.IrqsFit t := by
  obtain ⟨n, hn⟩ := h fun _ => true
  obtain ⟨-, hinside, hloaded⟩ := hn (max n (maxRecords + 1)) (le_max_left _ _)
  have hrounds : maxRecords < max n (maxRecords + 1) := le_max_right n (maxRecords + 1)
  have hlast : ∃ t < maxRecords, image.type t = ifLast := by
    by_contra hnone
    refine hinside (loadInterfaces_unended hv (fun i hi heq => hnone ⟨i, hi, heq⟩) hrounds)
  obtain ⟨t, ht, hend⟩ := exists_endsAt hlast
  refine ⟨t, ht, hend, fun k hk hreach => ?_⟩
  rcases loadInterfaces_endsAt (fun _ => true) hv hend ht hrounds with hload | ⟨-, ⟨_, hno⟩, -⟩
  · rw [if_neg (by omega)] at hload
    exact irqFits_of_run hv (Nat.lt_succ_of_lt hk) ht hreach
      (hloaded _ _ hload fourGpios (fun _ => granted) (.ok ()) {} rfl)
  · cases hno

/-- An image is bounded when its version is not known, or when one of its records is of the last
type and the interrupts before it fit. -/
theorem scanBounded_iff (hheader : image.hasHeader = true) :
    ScanBounded image ↔ image.version ≠ .ok version10 ∨
      ∃ t < maxRecords, image.EndsAt t ∧ image.IrqsFit t := by
  by_cases hv : image.version = .ok version10
  · constructor
    · intro h
      exact .inr (ends_of_scanBounded hv h)
    · rintro (hversion | ⟨t, ht, hend, hfits⟩)
      · exact absurd hv hversion
      · exact scanBounded_of_ends hv hend hfits ht
  · refine iff_of_true (fun kzalloc => ⟨0, fun rounds _ => ?_⟩) (.inl hv)
    obtain ⟨v, hversion⟩ := version_of_hasHeader hheader
    rw [loadInterfaces_version hversion fun heq => hv (heq ▸ hversion)]
    refine ⟨by simp, by simp, fun count loaded hloaded => ?_⟩
    cases hloaded

theorem clockCard_irqsFit : clockCard.IrqsFit 10 := by
  intro k hk _ index hindex
  rw [Image.irqIndex, clockCard_type hk] at hindex
  cases hindex

theorem scanBounded_clockCard : ScanBounded clockCard :=
  (scanBounded_iff (show clockCard.hasHeader = true from card_hasHeader)).mpr
    (.inr ⟨10, by decide, clockCard_endsAt, clockCard_irqsFit⟩)

/-- Records for a clock, and no end of them. -/
def endlessCard : Image := card fun _ => [7]

/-- One record for I2C, with an interrupt behind the table. -/
def irqCard : Image := card fun k => if k = 0 then [1, 0x50, 200] else [0xff]

theorem not_scanBounded_endlessCard : ¬ ScanBounded endlessCard := by
  intro h
  have hv : endlessCard.version = .ok version10 := card_version
  obtain ⟨t, ht, hend, -⟩ := ends_of_scanBounded hv h
  have hlast := hend.last
  rw [Image.type, endlessCard, card_byte ht (by decide)] at hlast
  exact absurd hlast (by decide)

theorem not_scanBounded_irqCard : ¬ ScanBounded irqCard := by
  intro h
  have hv : irqCard.version = .ok version10 := card_version
  obtain ⟨t, -, hend, hfits⟩ := ends_of_scanBounded hv h
  have htype : irqCard.type 0 = 1 := by
    rw [Image.type, irqCard, card_byte (by decide) (by decide)]
    rfl
  have hindex : irqCard.irqIndex 0 = some 200 := by
    have hbyte : irqCard.byte 0 2 = 200 := by
      rw [irqCard, card_byte (by decide) (by decide)]
      rfl
    rw [Image.irqIndex, htype, hbyte]
    rfl
  have hpos : 0 < t := by
    by_contra hzero
    have hlast := hend.last
    rw [Nat.eq_zero_of_not_pos hzero, htype] at hlast
    exact absurd hlast (by decide)
  have hreach : irqCard.Reaches 0 := ⟨by decide, by decide⟩
  rcases hfits 0 hpos hreach 200 (by rw [hindex]; rfl) with heq | hlt
  · exact absurd heq (by decide)
  · exact absurd hlt (by decide)

/-- A card can have no last record, or an interrupt that is not in the table. -/
theorem scanBounded_fails : endlessCard.hasHeader = true ∧ irqCard.hasHeader = true ∧
    ¬ ScanBounded endlessCard ∧ ¬ ScanBounded irqCard :=
  ⟨card_hasHeader, card_hasHeader, not_scanBounded_endlessCard, not_scanBounded_irqCard⟩

end MangOH.IotSlot
