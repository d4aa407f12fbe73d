import Mathlib.Data.List.Basic
import Mathlib.Data.List.Range
import MangOH.IotSlot.Eeprom

/-! The records that the slot finds in an EEPROM. -/
namespace MangOH.IotSlot
open Lib

variable {image : Image} {kzalloc : Nat → Bool} {k n t rounds : Nat}

/-- How many records there is room for. -/
def maxRecords : Nat := 61

/-- A byte of a record; the last record ends where the image does. -/
def Image.byte (image : Image) (record offset : Nat) : UInt8 :=
  image.bytes.getD (interfaceOffset + recordSize * record + offset) 0

def Image.type (image : Image) (record : Nat) : UInt8 := image.byte record 0

/-- The first record of the last type. -/
structure Image.EndsAt (image : Image) (t : Nat) : Prop where
  records : ∀ k < t, image.type k ≠ ifLast
  last : image.type t = ifLast

/-! ### Reading a record -/

theorem read_eq {offset : Nat} (h : offset < eepromSize) :
    image.read offset = .ok (image.bytes.getD offset 0) := by
  have hlt : offset < image.bytes.length := by rw [image.length_bytes]; exact h
  rw [Image.read, List.getD_eq_getElem?_getD, List.getElem?_eq_getElem hlt]
  rfl

theorem field_eq {offset : Nat} (hv : image.version = .ok version10) (hk : k < maxRecords)
    (ho : offset < recordSize) : image.field k offset = .ok (image.byte k offset) := by
  simp only [Image.field, hv, bind, Except.bind, if_true]
  apply read_eq
  unfold maxRecords at hk
  unfold interfaceOffset eepromSize
  unfold recordSize at ho ⊢
  omega

theorem field_outside (hv : image.version = .ok version10) (hk : maxRecords ≤ k) (offset : Nat) :
    image.field k offset = .error .outsideImage := by
  have hle : image.bytes.length ≤ interfaceOffset + recordSize * k + offset := by
    rw [image.length_bytes]
    unfold maxRecords at hk
    unfold interfaceOffset eepromSize recordSize
    omega
  simp only [Image.field, hv, bind, Except.bind, if_true, Image.read,
    List.getElem?_eq_none hle]

theorem ifType_eq (hv : image.version = .ok version10) (hk : k < maxRecords) :
    image.ifType k = .ok (image.type k) := field_eq hv hk (by decide)

theorem ifFirst_eq (hv : image.version = .ok version10) :
    image.ifFirst = .ok (if image.type 0 = ifLast then none else some 0) := by
  rw [Image.ifFirst, ifType_eq hv (by decide)]
  rfl

theorem ifNext_eq (hv : image.version = .ok version10) (hk : k < maxRecords) :
    image.ifNext k = .ok (if image.type k = ifLast then none else some (k + 1)) := by
  rw [Image.ifNext, ifType_eq hv hk]
  rfl

theorem ifNext_outside (hv : image.version = .ok version10) (hk : maxRecords ≤ k) :
    image.ifNext k = .error .outsideImage := by
  rw [Image.ifNext, Image.ifType, field_outside hv hk]
  rfl

/-! ### Cards -/

/-- A card with these records, each followed by zeros. -/
def cardByte (record : Nat → List UInt8) (offset : Nat) : UInt8 :=
  if offset < interfaceOffset then [0xaa, 0x55, 1, 0].getD offset 0
  else (record ((offset - interfaceOffset) / recordSize)).getD
    ((offset - interfaceOffset) % recordSize) 0

def card (record : Nat → List UInt8) : Image :=
  ⟨(List.range eepromSize).map (cardByte record), by rw [List.length_map, List.length_range]⟩

variable {record : Nat → List UInt8}

theorem card_getElem? {offset : Nat} (h : offset < eepromSize) :
    (card record).bytes[offset]? = some (cardByte record offset) := by
  rw [card, List.getElem?_map, List.getElem?_range h]
  rfl

theorem card_hasHeader : (card record).hasHeader = true := by
  rw [Image.hasHeader, card_getElem? (by decide), card_getElem? (by decide)]
  rfl

theorem card_version : (card record).version = .ok version10 := by
  rw [Image.version, if_pos card_hasHeader, Image.read, Image.read, card_getElem? (by decide),
    card_getElem? (by decide)]
  rfl

theorem card_byte {offset : Nat} (hk : k < maxRecords) (ho : offset < recordSize) :
    (card record).byte k offset = (record k).getD offset 0 := by
  unfold maxRecords at hk
  have hlt : interfaceOffset + recordSize * k + offset < eepromSize := by
    unfold interfaceOffset eepromSize
    unfold recordSize at ho ⊢
    omega
  have hdiv : (interfaceOffset + recordSize * k + offset - interfaceOffset) / recordSize = k := by
    unfold interfaceOffset
    unfold recordSize at ho ⊢
    omega
  have hmod :
      (interfaceOffset + recordSize * k + offset - interfaceOffset) % recordSize = offset := by
    unfold interfaceOffset
    unfold recordSize at ho ⊢
    omega
  rw [Image.byte, List.getD_eq_getElem?_getD, card_getElem? hlt, Option.getD_some, cardByte,
    if_neg (by omega), hdiv, hmod]

/-! ### The list of the records -/

theorem loadLoop_refused (hrefused : kzalloc k = false) (hrounds : 0 < rounds) :
    image.loadLoop kzalloc rounds (some k) (List.range k) = .ok (-1, []) := by
  obtain ⟨rounds, rfl⟩ := Nat.exists_eq_succ_of_ne_zero hrounds.ne'
  rw [Image.loadLoop, List.length_range, hrefused]
  simp

theorem loadLoop_next (hmemory : kzalloc k = true) :
    image.loadLoop kzalloc (rounds + 1) (some k) (List.range k) =
      (image.ifNext k >>= fun next =>
        image.loadLoop kzalloc rounds next (List.range (k + 1))) := by
  rw [Image.loadLoop, List.length_range, hmemory, List.range_succ]
  rfl

/-- From a record on, the list is filled up to the record of the last type, and with it. -/
theorem loadLoop_endsAt (kzalloc : Nat → Bool) (hv : image.version = .ok version10)
    (hend : image.EndsAt t) (ht : t < maxRecords) (hk : k ≤ t) (hrounds : t < rounds + k) :
    image.loadLoop kzalloc rounds (some k) (List.range k) = .ok (↑(t + 1), List.range (t + 1)) ∨
      (∃ i, kzalloc i = false) ∧
        image.loadLoop kzalloc rounds (some k) (List.range k) = .ok (-1, []) := by
  induction rounds generalizing k with
  | zero => omega
  | succ rounds ih =>
    cases hmemory : kzalloc k with
    | false => exact .inr ⟨⟨k, hmemory⟩, loadLoop_refused hmemory (Nat.succ_pos _)⟩
    | true =>
      rw [loadLoop_next hmemory, ifNext_eq hv (Nat.lt_of_le_of_lt hk ht)]
      rcases Nat.lt_or_eq_of_le hk with hlt | rfl
      · rw [if_neg (hend.records k hlt)]
        exact ih hlt (by omega)
      · rw [if_pos hend.last]
        left
        cases rounds <;> simp [Image.loadLoop, bind, Except.bind]

/-- Without a record of the last type, the loop runs out of the image. -/
theorem loadLoop_unended (hv : image.version = .ok version10)
    (hrecords : ∀ i < maxRecords, image.type i ≠ ifLast) (hk : k ≤ maxRecords)
    (hrounds : maxRecords < rounds + k) :
    image.loadLoop (fun _ => true) rounds (some k) (List.range k) = .error .outsideImage := by
  induction rounds generalizing k with
  | zero => omega
  | succ rounds ih =>
    rw [loadLoop_next rfl]
    rcases Nat.lt_or_eq_of_le hk with hlt | rfl
    · rw [ifNext_eq hv hlt, if_neg (hrecords k hlt)]
      exact ih hlt (by omega)
    · rw [ifNext_outside hv le_rfl]
      rfl

/-- The record of the last type is in the list too, unless it is the first one. -/
theorem loadInterfaces_endsAt (kzalloc : Nat → Bool) (hv : image.version = .ok version10)
    (hend : image.EndsAt t) (ht : t < maxRecords) (hrounds : maxRecords < rounds) :
    image.loadInterfaces kzalloc rounds =
        .ok (if t = 0 then (0, []) else (↑(t + 1), List.range (t + 1))) ∨
      (t ≠ 0 ∧ (∃ i, kzalloc i = false) ∧ image.loadInterfaces kzalloc rounds = .ok (-1, [])) := by
  have hload : image.loadInterfaces kzalloc rounds = image.loadLoop kzalloc rounds
      (if image.type 0 = ifLast then none else some 0) [] := by
    rw [Image.loadInterfaces, ifFirst_eq hv]
    rfl
  rw [hload]
  rcases Nat.eq_zero_or_pos t with rfl | hpos
  · left
    rw [if_pos hend.last, if_pos rfl]
    cases rounds <;> rfl
  · rw [if_neg (hend.records 0 hpos), if_neg hpos.ne']
    rcases loadLoop_endsAt kzalloc hv hend ht hpos.le
      (show t < rounds + 0 by omega) with hall | ⟨hrefused, hnone⟩
    · exact .inl hall
    · exact .inr ⟨hpos.ne', hrefused, hnone⟩

theorem loadInterfaces_unended (hv : image.version = .ok version10)
    (hrecords : ∀ i < maxRecords, image.type i ≠ ifLast) (hrounds : maxRecords < rounds) :
    image.loadInterfaces (fun _ => true) rounds = .error .outsideImage := by
  rw [Image.loadInterfaces, ifFirst_eq hv, if_neg (hrecords 0 (by decide))]
  exact loadLoop_unended hv hrecords (Nat.zero_le _) (by omega)

/-! ### The interfaces of the slot -/

section Interfaces

variable {pdata : PlatformData} {answer : Answers} {answers : Nat → Answers} {s s' : SlotState}
  {ret ret' : Ret} {item : EepromInterface} {records : List Nat}

/-- How many of the records the slot takes up as an interface. -/
def Image.known (image : Image) (records : List Nat) : Nat :=
  records.countP fun k => eepromInterface (image.type k) ≠ .other

/-- One more interface, and no resource less. -/
structure Adds (s s' : SlotState) : Prop where
  length : s'.interfaces.length = s.interfaces.length + 1
  held : ∀ r ∈ s.ledger.held, r ∈ s'.ledger.held

theorem adds_record (interface : SlotInterface) (h : ∀ r ∈ s.ledger.held, r ∈ s'.ledger.held)
    (hsame : s'.interfaces = s.interfaces) : Adds s (s'.record interface) := by
  refine ⟨?_, h⟩
  rw [SlotState.record, List.length_append, hsame]
  rfl

theorem adds_addBus {bus : Bus} (h : addBus pdata answer bus s = (.ok (), s')) : Adds s s' := by
  unfold addBus at h
  split at h
  · split at h
    · cases h
    · cases h
      exact adds_record _ (fun r hr => List.mem_cons_of_mem _ hr) rfl
  · cases h
    exact adds_record _ (fun r hr => hr) rfl

theorem adds_addI2c (h : addI2c answer s = (.ok (), s')) : Adds s s' := by
  unfold addI2c at h
  split at h
  · cases h
  · cases h
    exact adds_record _ (fun r hr => List.mem_cons_of_mem _ hr) rfl

theorem adds_addSpi (h : addSpi answer s = (.ok (), s')) : Adds s s' := by
  unfold addSpi at h
  split at h
  · cases h
  · dsimp only at h
    split at h
    · cases h
    · cases h
      refine adds_record _ (fun r hr => ?_) rfl
      exact List.mem_cons_of_mem _ (List.mem_cons_of_mem _ hr)

theorem length_addGpio (h : addGpio pdata answer s = (.ok (), s')) :
    s'.interfaces.length = s.interfaces.length + 1 := by
  unfold addGpio at h
  split at h
  · cases h
    simp [SlotState.record]
  · cases h

theorem checked_ok {p : Ret × SlotState} (h : (p.1.map Except.ok, p.2) = (.ok ret', s')) :
    p = (.ok (), s') := by
  obtain ⟨_ | _, _⟩ := p
  · cases h
  · cases h
    rfl

/-- What a turn of the loop that succeeds can do. -/
theorem enumerateItem_ok (h : enumerateItem pdata answer ret item s = (.ok ret', s')) :
    s.interfaces.length < maxInterfaces ∧
      (item = .gpio ∧ addGpio pdata answer s = (.ok (), s') ∨
        item ≠ .gpio ∧ item ≠ .other ∧ Adds s s' ∨ item = .other ∧ s' = s) := by
  unfold enumerateItem at h
  split at h
  · cases h
  · next hroom =>
    refine ⟨Nat.lt_of_not_le hroom, ?_⟩
    cases item with
    | gpio => exact .inl ⟨rfl, checked_ok h⟩
    | i2c => exact .inr (.inl ⟨by simp, by simp, adds_addI2c (checked_ok h)⟩)
    | spi => exact .inr (.inl ⟨by simp, by simp, adds_addSpi (checked_ok h)⟩)
    | sdio => exact .inr (.inl ⟨by simp, by simp, adds_addBus (checked_ok h)⟩)
    | adc => exact .inr (.inl ⟨by simp, by simp, adds_addBus (checked_ok h)⟩)
    | pcm => exact .inr (.inl ⟨by simp, by simp, adds_addBus (checked_ok h)⟩)
    | uart => exact .inr (.inl ⟨by simp, by simp, adds_addBus (checked_ok h)⟩)
    | usb | clk | plat =>
      cases h
      exact .inr (.inl ⟨by simp, by simp, adds_record _ (fun r hr => hr) rfl⟩)
    | other =>
      cases h
      exact .inr (.inr ⟨rfl, rfl⟩)

/-- A record that is taken up adds one interface. -/
theorem length_enumerateItem (h : enumerateItem pdata answer ret item s = (.ok ret', s')) :
    s.interfaces.length < maxInterfaces ∧
      s'.interfaces.length = s.interfaces.length + if item = .other then 0 else 1 := by
  obtain ⟨hroom, ⟨rfl, hgpio⟩ | ⟨-, hknown, hadds⟩ | ⟨rfl, rfl⟩⟩ := enumerateItem_ok h
  · exact ⟨hroom, length_addGpio hgpio⟩
  · rw [if_neg hknown]
    exact ⟨hroom, hadds.length⟩
  · exact ⟨hroom, rfl⟩

theorem enumerateRecord_ok (hv : image.version = .ok version10) (hk : k < maxRecords)
    (h : enumerateRecord pdata image answer ret k s = .ok (.ok ret', s')) :
    enumerateItem pdata answer ret (eepromInterface (image.type k)) s = (.ok ret', s') := by
  unfold enumerateRecord at h
  split at h
  · cases h
  · rw [ifType_eq hv hk] at h
    simp only [bind, Except.bind] at h
    split at h
    · cases h
    · exact Except.ok.inj h

theorem enumerateRecords_append (more : List Nat) :
    enumerateRecords pdata image answers (records ++ more) ret s =
      (enumerateRecords pdata image answers records ret s >>= fun r =>
        match r with
        | (.ok ret, s) => enumerateRecords pdata image answers more ret s
        | (.error e, s) => .ok (.error e, s)) := by
  induction records generalizing ret s with
  | nil => rfl
  | cons k records ih =>
    rw [List.cons_append, enumerateRecords, enumerateRecords]
    cases enumerateRecord pdata image (answers k) ret k s with
    | error e => rfl
    | ok r =>
      obtain ⟨_ | _, _⟩ := r
      · rfl
      · exact ih

/-- The records that are gone through without an error are interfaces now, but for unknown ones. -/
theorem length_enumerateRecords (hv : image.version = .ok version10)
    (hrecords : ∀ k ∈ records, k < maxRecords)
    (h : enumerateRecords pdata image answers records ret s = .ok (.ok ret', s')) :
    s'.interfaces.length = s.interfaces.length + image.known records := by
  induction records generalizing ret s with
  | nil =>
    cases h
    rfl
  | cons k records ih =>
    rw [enumerateRecords] at h
    cases hk : enumerateRecord pdata image (answers k) ret k s with
    | error e =>
      rw [hk] at h
      cases h
    | ok r =>
      obtain ⟨_ | ret₁, s₁⟩ := r
      · rw [hk] at h
        cases h
      · rw [hk] at h
        obtain ⟨-, hlen⟩ := length_enumerateItem (enumerateRecord_ok hv (hrecords k (by simp)) hk)
        rw [ih (fun j hj => hrecords j (List.mem_cons_of_mem _ hj)) h, hlen, Image.known,
          Image.known, List.countP_cons]
        by_cases hother : eepromInterface (image.type k) = .other
        · simp [hother]
        · simp [hother]
          omega

theorem enumerateRecord_last (hv : image.version = .ok version10) (hk : k < maxRecords)
    (hlast : image.type k = ifLast) : enumerateRecord pdata image answer ret k s =
      .ok (if maxInterfaces ≤ s.interfaces.length then (.error .range, s) else (.ok ret, s)) := by
  unfold enumerateRecord
  split
  · rfl
  · next hroom =>
    have hother : eepromInterface ifLast = .other := by decide
    rw [ifType_eq hv hk, hlast]
    simp only [bind, Except.bind, hother, lookUp, enumerateItem, if_neg hroom]
    rfl

/-- The record of the last type takes a place too. -/
theorem enumerateRecords_endsAt (hv : image.version = .ok version10) (hend : image.EndsAt n)
    (hn : n < maxRecords) (hs : s.interfaces = [])
    (h : enumerateRecords pdata image answers (List.range n) ret s = .ok (.ok ret', s')) :
    enumerateRecords pdata image answers (List.range (n + 1)) ret s =
      .ok (if maxInterfaces ≤ image.known (List.range n) then (.error .range, s')
        else (.ok ret', s')) := by
  have hlen := length_enumerateRecords hv
    (fun k hk => Nat.lt_trans (List.mem_range.mp hk) hn) h
  rw [hs, List.length_nil, Nat.zero_add] at hlen
  rw [List.range_succ, enumerateRecords_append, h]
  simp only [bind, Except.bind, enumerateRecords]
  rw [enumerateRecord_last hv hn hend.last, hlen]
  by_cases hfull : maxInterfaces ≤ image.known (List.range n)
  · simp only [if_pos hfull]
  · simp only [if_neg hfull]

/-- When the requests for the records succeed, so does the enumeration of what was loaded. -/
def Enumerates (pdata : PlatformData) (image : Image) (loaded : List Nat) (n : Nat) : Prop :=
  ∀ answers ret s ret' s', s.interfaces = [] →
    enumerateRecords pdata image answers (List.range n) ret s = .ok (.ok ret', s') →
    ∀ t, enumerateRecords pdata image answers loaded ret s ≠ .ok (.error .range, t)

/-- The list has the records and nothing else, and a full card can be enumerated. -/
structure ListExact (image : Image) (kzalloc : Nat → Bool) (rounds n : Nat) : Prop where
  list : image.loadInterfaces kzalloc rounds = .ok (n, List.range n)
  enumerates : n = maxInterfaces → ∀ pdata count loaded,
    image.loadInterfaces kzalloc rounds = .ok (count, loaded) → Enumerates pdata image loaded n

/-- Only an empty list is exact, and a card with as many known interfaces as there may be is refused
although all requests succeed. -/
theorem listExact_iff (hv : image.version = .ok version10) (hend : image.EndsAt n)
    (hn : n ≤ maxInterfaces) (hrounds : maxRecords < rounds) :
    (ListExact image kzalloc rounds n ↔ n = 0) ∧
      ∀ count loaded, image.loadInterfaces kzalloc rounds = .ok (count, loaded) → 0 ≤ count →
        ∀ pdata answers ret s ret' s', s.interfaces = [] →
          enumerateRecords pdata image answers (List.range n) ret s = .ok (.ok ret', s') →
          ((∃ t, enumerateRecords pdata image answers loaded ret s = .ok (.error .range, t)) ↔
            image.known (List.range n) = maxInterfaces) := by
  have hlt : n < maxRecords := Nat.lt_of_le_of_lt hn (by decide)
  have hload := loadInterfaces_endsAt kzalloc hv hend hlt hrounds
  have hknown : image.known (List.range n) ≤ n := by
    have hle : image.known (List.range n) ≤ (List.range n).length := List.countP_le_length
    rwa [List.length_range] at hle
  constructor
  · constructor
    · intro h
      by_contra hne
      rw [h.list, if_neg hne] at hload
      rcases hload with heq | ⟨-, -, heq⟩
      · simp only [Except.ok.injEq, Prod.mk.injEq] at heq
        have := heq.1
        omega
      · simp only [Except.ok.injEq, Prod.mk.injEq] at heq
        omega
    · rintro rfl
      rcases hload with hload | ⟨hne, -⟩
      · exact ⟨hload, fun h => absurd h (by decide)⟩
      · exact absurd rfl hne
  · intro count loaded hloaded hcount pdata answers ret s ret' s' hs hrun
    rw [hloaded] at hload
    rcases hload with heq | ⟨-, -, heq⟩
    · rcases Nat.eq_zero_or_pos n with rfl | hpos
      · rw [if_pos rfl] at heq
        cases heq
        refine iff_of_false ?_ (by simp [Image.known, maxInterfaces])
        rintro ⟨t, ht⟩
        cases ht
      · rw [if_neg hpos.ne'] at heq
        cases heq
        rw [enumerateRecords_endsAt hv hend hlt hs hrun]
        constructor
        · rintro ⟨t, ht⟩
          by_contra hne
          rw [if_neg (by omega)] at ht
          cases ht
        · intro hfull
          exact ⟨s', by rw [if_pos hfull.ge]⟩
    · cases heq
      omega

/-- Ten interfaces for a clock. -/
def clockCard : Image := card fun k => if k < 10 then [7] else [0xff]

theorem clockCard_version : clockCard.version = .ok version10 := card_version

theorem clockCard_type (hk : k < 10) : clockCard.type k = 7 := by
  rw [Image.type, clockCard, card_byte (Nat.lt_trans hk (by decide)) (by decide), if_pos hk]
  rfl

theorem clockCard_endsAt : clockCard.EndsAt 10 := by
  constructor
  · intro k hk
    rw [clockCard_type hk]
    decide
  · rw [Image.type, clockCard, card_byte (by decide) (by decide)]
    decide

/-- A card without an interface. -/
def emptyCard : Image := card fun _ => [0xff]

theorem emptyCard_endsAt : emptyCard.EndsAt 0 := by
  constructor
  · intro k hk
    cases hk
  · rw [Image.type, emptyCard, card_byte (by decide) (by decide)]
    decide

theorem enumerateRecord_clock (hv : image.version = .ok version10) (hk : k < maxRecords)
    (htype : image.type k = 7) (hs : s.interfaces.length < maxInterfaces) :
    enumerateRecord pdata image answer ret k s = .ok (.ok ret, s.record .clk) := by
  have hclk : eepromInterface 7 = .clk := by decide
  unfold enumerateRecord
  rw [if_neg (by omega), ifType_eq hv hk, htype]
  simp only [bind, Except.bind, hclk, lookUp, enumerateItem]
  rw [if_neg (by omega)]
  rfl

theorem enumerateRecords_clockCard (pdata : PlatformData) (answers : Nat → Answers) (ret : Ret)
    (hn : n ≤ 10) :
    ∃ t, enumerateRecords pdata clockCard answers (List.range n) ret {} = .ok (.ok ret, t) ∧
      t.interfaces.length = n := by
  induction n with
  | zero => exact ⟨{}, rfl, rfl⟩
  | succ n ih =>
    obtain ⟨t, hrun, hlen⟩ := ih (by omega)
    have hlt : n < maxRecords := Nat.lt_of_lt_of_le hn (by decide)
    have htype : clockCard.type n = 7 := clockCard_type hn
    have hroom : t.interfaces.length < maxInterfaces := by
      rw [hlen]
      exact hn
    refine ⟨t.record .clk, ?_, ?_⟩
    · rw [List.range_succ, enumerateRecords_append, hrun]
      simp only [bind, Except.bind, enumerateRecords,
        enumerateRecord_clock clockCard_version hlt htype hroom]
    · simp [SlotState.record, hlen]

theorem clockCard_loaded :
    clockCard.loadInterfaces (fun _ => true) 62 = .ok (11, List.range 11) := by
  rcases loadInterfaces_endsAt (fun _ => true) clockCard_version clockCard_endsAt (by decide)
    (show maxRecords < 62 by decide) with hload | ⟨-, ⟨_, hno⟩, -⟩
  · exact hload
  · cases hno

theorem clockCard_known : clockCard.known (List.range 10) = maxInterfaces := by
  rw [Image.known, List.countP_eq_length.mpr, List.length_range]
  · rfl
  · intro k hk
    rw [clockCard_type (List.mem_range.mp hk)]
    decide

theorem listExact_iff_cards : ListExact emptyCard (fun _ => true) 62 0 ∧
    ∀ pdata answers, ∃ t, enumerateRecords pdata clockCard answers (List.range 11) (.ok ()) {} =
      .ok (.error .range, t) := by
  constructor
  · exact (listExact_iff card_version emptyCard_endsAt (by decide) (by decide)).1.mpr rfl
  · intro pdata answers
    obtain ⟨s, hrun, -⟩ := enumerateRecords_clockCard pdata answers (.ok ()) (Nat.le_refl 10)
    have hiff := (listExact_iff clockCard_version clockCard_endsAt (Nat.le_refl 10)
      (show maxRecords < 62 by decide)).2 11 _ clockCard_loaded (by decide)
    exact (hiff pdata answers _ _ _ s rfl hrun).mpr clockCard_known

/-- The list of a full card has the last record too, and the card is refused. -/
theorem listExact_fails : clockCard.version = .ok version10 ∧ clockCard.EndsAt 10 ∧
    ¬ ListExact clockCard (fun _ => true) 62 10 ∧ ∀ pdata answers, ∃ t,
      enumerateRecords pdata clockCard answers (List.range 11) (.ok ()) {} =
        .ok (.error .range, t) := by
  refine ⟨clockCard_version, clockCard_endsAt, fun h => ?_, fun pdata answers => ?_⟩
  · have hload := clockCard_loaded
    rw [h.list] at hload
    exact absurd hload (by decide)
  · obtain ⟨t, hrun, -⟩ := enumerateRecords_clockCard pdata answers (.ok ()) (Nat.le_refl 10)
    refine ⟨t, ?_⟩
    rw [enumerateRecords_endsAt clockCard_version clockCard_endsAt (by decide) rfl hrun, if_pos]
    exact clockCard_known.ge

end Interfaces

end MangOH.IotSlot
