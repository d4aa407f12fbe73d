import MangOH.Mt7697q.Interrupt

/-! The macros for bit fields, and the flags and registers that are read with them. -/
namespace MangOH.Mt7697q

/-- What the kernel is built for: `BITS_PER_LONG`. -/
inductive LongSize
  | bits32
  | bits64
deriving DecidableEq

abbrev LongSize.bits : LongSize → Nat
  | .bits32 => 32
  | .bits64 => 64

variable {n : Nat}

/-- `GENMASK` for an `unsigned long` of `n` bits: the bits from `l` up to `h`. There is none where
a shift count is out of range. -/
def genmask (n h l : Nat) : Option (BitVec n) :=
  if h < n ∧ l < n then some (BitVec.allOnes n <<< l &&& BitVec.allOnes n >>> (n - 1 - h)) else none

/-- `BF_CLEAR` -/
def longClear (v : BitVec n) (o w : Nat) : Option (BitVec n) :=
  (genmask n (o + w) o).map fun mask => v &&& ~~~mask

/-- `BF_GET` -/
def longGet (v : BitVec n) (o w : Nat) : Option (BitVec n) :=
  (genmask n w 0).map fun mask => v >>> o &&& mask

/-- `BF_DEFINE` -/
def longDefine (v : BitVec n) (o w : Nat) : Option (BitVec n) :=
  (genmask n w 0).map fun mask => (v &&& mask) <<< o

/-- `BF_SET` -/
def longSet (v b : BitVec n) (o w : Nat) : Option (BitVec n) := do
  return (← longClear v o w) ||| (← longDefine b o w)

/-- A field of a `u32`. -/
structure Field where
  offset : Nat
  width : Nat
  pos : 0 < width
  fits : offset + width ≤ 32

def Field.Inside (f : Field) (i : Nat) : Prop := f.offset ≤ i ∧ i < f.offset + f.width

/-- `mt7697q_wr_unused`, for one of its queues. -/
def markUnused (qs : QueueData) : QueueData :=
  { qs with flags := qs.flags &&& ~~~UInt32.ofNat (flagsGetInUse qs.flags) }

def ioStatusRegBusyOffset : Nat := 0
def ioStatusRegBusyWidth : Nat := 1
def ioStatusRegBusyValBusy : Nat := 1

/-- `mt7697io_busy` -/
def ioBusy (value : UInt16) : Bool :=
  bfGet value.toNat ioStatusRegBusyOffset ioStatusRegBusyWidth == ioStatusRegBusyValBusy

/-! ### What a mask keeps -/

theorem genmask_isSome {h l : Nat} : (genmask n h l).isSome = true ↔ h < n ∧ l < n := by
  unfold genmask
  split <;> simp_all

theorem getLsbD_genmask {h l : Nat} {mask : BitVec n} (hmask : genmask n h l = some mask)
    (i : Nat) : mask.getLsbD i = decide (l ≤ i ∧ i ≤ h) := by
  unfold genmask at hmask
  split at hmask
  · next hlt =>
    cases hmask
    simp only [BitVec.getLsbD_and, BitVec.getLsbD_shiftLeft, BitVec.getLsbD_ushiftRight,
      BitVec.getLsbD_allOnes]
    by_cases hi : l ≤ i ∧ i ≤ h
    · simp [hi]
      omega
    · simp [hi]
      omega
  · cases hmask

/-- The macros agree with `bfGet`, which the queues are modelled with. -/
theorem longGet_toNat {v r : BitVec n} {o w : Nat} (h : longGet v o w = some r) :
    r.toNat = bfGet v.toNat o w := by
  obtain ⟨mask, hmask, rfl⟩ := Option.map_eq_some_iff.mp h
  have hlt := (genmask_isSome (n := n) (h := w) (l := 0)).mp (by simp [hmask])
  apply Nat.eq_of_testBit_eq
  intro i
  rw [BitVec.testBit_toNat, BitVec.getLsbD_and, getLsbD_genmask hmask, bfGet, Nat.testBit_and,
    Nat.testBit_two_pow_sub_one, BitVec.getLsbD_ushiftRight, Nat.testBit_shiftRight,
    BitVec.testBit_toNat]
  congr 1
  simp only [Nat.zero_le, true_and, Nat.lt_succ_iff]

theorem longClear_isSome {v : BitVec n} {o w : Nat} :
    (longClear v o w).isSome = true ↔ o + w < n := by
  rw [longClear, Option.isSome_map, genmask_isSome]
  omega

theorem getLsbD_longClear {v r : BitVec n} {o w : Nat} (h : longClear v o w = some r) (i : Nat) :
    r.getLsbD i = (v.getLsbD i && !decide (o ≤ i ∧ i ≤ o + w)) := by
  obtain ⟨mask, hmask, rfl⟩ := Option.map_eq_some_iff.mp h
  rw [BitVec.getLsbD_and, BitVec.getLsbD_not, getLsbD_genmask hmask]
  by_cases hi : i < n
  · simp [hi]
  · simp [BitVec.getLsbD_of_ge v i (Nat.le_of_not_lt hi)]

theorem longGet_isSome {v : BitVec n} {o w : Nat} : (longGet v o w).isSome = true ↔ w < n := by
  rw [longGet, Option.isSome_map, genmask_isSome]
  omega

theorem getLsbD_longGet {v r : BitVec n} {o w : Nat} (h : longGet v o w = some r) (i : Nat) :
    r.getLsbD i = (v.getLsbD (o + i) && decide (i ≤ w)) := by
  obtain ⟨mask, hmask, rfl⟩ := Option.map_eq_some_iff.mp h
  rw [BitVec.getLsbD_and, BitVec.getLsbD_ushiftRight, getLsbD_genmask hmask]
  simp

theorem longDefine_isSome {v : BitVec n} {o w : Nat} :
    (longDefine v o w).isSome = true ↔ w < n := by
  rw [longDefine, Option.isSome_map, genmask_isSome]
  omega

theorem getLsbD_longDefine {v r : BitVec n} {o w : Nat} (h : longDefine v o w = some r) {i : Nat}
    (hi : i < n) : r.getLsbD i = (decide (o ≤ i ∧ i ≤ o + w) && v.getLsbD (i - o)) := by
  obtain ⟨mask, hmask, rfl⟩ := Option.map_eq_some_iff.mp h
  rw [BitVec.getLsbD_shiftLeft, BitVec.getLsbD_and, getLsbD_genmask hmask]
  by_cases ho : o ≤ i
  · have hiff : i - o ≤ w ↔ i ≤ o + w := by omega
    simp [hi, ho, hiff, Bool.and_comm]
  · simp [hi, ho]

theorem longSet_isSome {v b : BitVec n} {o w : Nat} :
    (longSet v b o w).isSome = true ↔ o + w < n := by
  have hclear := longClear_isSome (v := v) (o := o) (w := w)
  have hdefine := longDefine_isSome (v := b) (o := o) (w := w)
  unfold longSet
  cases hc : longClear v o w with
  | none => simpa [hc] using hclear
  | some c =>
    cases hd : longDefine b o w with
    | none =>
      simp only [hc, hd, Option.isSome_some, true_iff, Option.isSome_none, Bool.false_eq_true,
        false_iff] at hclear hdefine
      omega
    | some d => simpa [hc] using hclear

/-- `BF_SET` puts one bit more than the width says into the field. -/
theorem getLsbD_longSet {v b r : BitVec n} {o w : Nat} (h : longSet v b o w = some r) {i : Nat}
    (hi : i < n) : r.getLsbD i = if o ≤ i ∧ i ≤ o + w then b.getLsbD (i - o) else v.getLsbD i := by
  simp only [longSet, Option.bind_eq_bind, Option.bind_eq_some_iff, Option.pure_def,
    Option.some.injEq] at h
  obtain ⟨c, hc, d, hd, rfl⟩ := h
  rw [BitVec.getLsbD_or, getLsbD_longClear hc, getLsbD_longDefine hd hi]
  by_cases hin : o ≤ i ∧ i ≤ o + w
  · rw [if_pos hin, decide_eq_true hin]
    simp
  · rw [if_neg hin, decide_eq_false hin]
    simp

/-! ### The laws -/

variable {L : LongSize} {v b : BitVec 32} {f : Field}

/-- A `u32` as an `unsigned long`. -/
def LongSize.long (L : LongSize) (v : BitVec 32) : BitVec L.bits := v.setWidth L.bits

/-- What is put into a field can be had back from it. -/
def SetThenGet (L : LongSize) (v b : BitVec 32) (f : Field) : Prop :=
  ∃ s r, longSet (L.long v) (L.long b) f.offset f.width = some s ∧
    longGet s f.offset f.width = some r ∧ r.toNat = b.toNat % 2 ^ f.width

/-- The bits of `v` outside the field are kept. -/
def KeepsOutside (v : BitVec 32) (f : Field) (result : Option (BitVec n)) : Prop :=
  ∃ r, result = some r ∧ ∀ i < 32, ¬ f.Inside i → r.getLsbD i = v.getLsbD i

/-- Only the bits in the field are looked at. -/
def GetsInside (L : LongSize) (v : BitVec 32) (f : Field) : Prop :=
  ∃ r, ∀ u : BitVec 32, (∀ i, f.Inside i → u.getLsbD i = v.getLsbD i) →
    longGet (L.long u) f.offset f.width = some r

/-- The laws of a bit field, for two values. -/
structure FieldLaws (L : LongSize) (v b : BitVec 32) (f : Field) : Prop where
  setThenGet : SetThenGet L v b f
  setKeeps : KeepsOutside v f (longSet (L.long v) (L.long b) f.offset f.width)
  clearKeeps : KeepsOutside v f (longClear (L.long v) f.offset f.width)
  getsInside : GetsInside L v f

theorem LongSize.le_bits (L : LongSize) : 32 ≤ L.bits := by
  cases L <;> decide

theorem getLsbD_long (i : Nat) : (L.long v).getLsbD i = v.getLsbD i := by
  have hle := L.le_bits
  rw [LongSize.long, BitVec.getLsbD_setWidth]
  by_cases hi : i < 32
  · simp [show i < L.bits by omega]
  · simp [BitVec.getLsbD_of_ge v i (Nat.le_of_not_lt hi)]

theorem setThenGet_iff :
    SetThenGet L v b f ↔ f.offset + f.width < L.bits ∧ b.getLsbD f.width = false := by
  constructor
  · rintro ⟨s, r, hs, hr, heq⟩
    have hlt : f.offset + f.width < L.bits := longSet_isSome.mp (by rw [hs]; rfl)
    refine ⟨hlt, ?_⟩
    have hbit : r.getLsbD f.width = b.getLsbD f.width := by
      rw [getLsbD_longGet hr, getLsbD_longSet hs hlt]
      simp [getLsbD_long]
    rw [← hbit, ← BitVec.testBit_toNat, heq, Nat.testBit_mod_two_pow]
    simp
  · rintro ⟨hlt, hb⟩
    obtain ⟨s, hs⟩ := Option.isSome_iff_exists.mp
      (longSet_isSome (v := L.long v) (b := L.long b).mpr hlt)
    obtain ⟨r, hr⟩ := Option.isSome_iff_exists.mp
      (longGet_isSome (v := s) (o := f.offset) (w := f.width).mpr (by omega))
    refine ⟨s, r, hs, hr, ?_⟩
    apply Nat.eq_of_testBit_eq
    intro i
    rw [BitVec.testBit_toNat, Nat.testBit_mod_two_pow, BitVec.testBit_toNat, getLsbD_longGet hr]
    by_cases hi : i ≤ f.width
    · rw [getLsbD_longSet hs (by omega)]
      rcases Nat.lt_or_eq_of_le hi with hi' | rfl
      · simp [getLsbD_long, hi, hi']
      · simp [getLsbD_long, hb]
    · simp [hi, show ¬ i < f.width by omega]

theorem clearKeeps_iff : KeepsOutside v f (longClear (L.long v) f.offset f.width) ↔
    f.offset + f.width < L.bits ∧ v.getLsbD (f.offset + f.width) = false := by
  constructor
  · rintro ⟨r, hr, hkeep⟩
    refine ⟨longClear_isSome.mp (by rw [hr]; rfl), ?_⟩
    rcases Nat.lt_or_eq_of_le f.fits with hlt | heq
    · rw [← hkeep _ hlt (by simp [Field.Inside]), getLsbD_longClear hr]
      simp
    · rw [heq]
      exact BitVec.getLsbD_of_ge v 32 le_rfl
  · rintro ⟨hlt, hv⟩
    obtain ⟨r, hr⟩ := Option.isSome_iff_exists.mp (longClear_isSome (v := L.long v).mpr hlt)
    refine ⟨r, hr, fun i _ hout => ?_⟩
    rw [getLsbD_longClear hr, getLsbD_long]
    by_cases hi : i = f.offset + f.width
    · simp [hi, hv]
    · have hnot : ¬ (f.offset ≤ i ∧ i ≤ f.offset + f.width) := by
        unfold Field.Inside at hout
        omega
      simp [hnot]

theorem setKeeps_iff : KeepsOutside v f (longSet (L.long v) (L.long b) f.offset f.width) ↔
    f.offset + f.width < L.bits ∧ (f.offset + f.width < 32 →
      b.getLsbD f.width = v.getLsbD (f.offset + f.width)) := by
  constructor
  · rintro ⟨r, hr, hkeep⟩
    have hlt := longSet_isSome.mp (show (longSet _ _ _ _).isSome = true by rw [hr]; rfl)
    refine ⟨hlt, fun h32 => ?_⟩
    rw [← hkeep _ h32 (by simp [Field.Inside]), getLsbD_longSet hr hlt]
    simp [getLsbD_long]
  · rintro ⟨hlt, hb⟩
    obtain ⟨r, hr⟩ := Option.isSome_iff_exists.mp
      (longSet_isSome (v := L.long v) (b := L.long b).mpr hlt)
    refine ⟨r, hr, fun i h32 hout => ?_⟩
    rw [getLsbD_longSet hr (Nat.lt_of_lt_of_le h32 L.le_bits), getLsbD_long, getLsbD_long]
    by_cases hi : i = f.offset + f.width
    · simp [hi, hb (hi ▸ h32)]
    · have hnot : ¬ (f.offset ≤ i ∧ i ≤ f.offset + f.width) := by
        unfold Field.Inside at hout
        omega
      rw [if_neg hnot]

/-- The bit behind the field is looked at too, if there is one. -/
theorem getsInside_iff :
    GetsInside L v f ↔ f.width < L.bits ∧ f.offset + f.width = 32 := by
  constructor
  · rintro ⟨r, hr⟩
    have hv := hr v fun _ _ => rfl
    refine ⟨longGet_isSome.mp (by rw [hv]; rfl), ?_⟩
    by_contra hne
    have hlt : f.offset + f.width < 32 := Nat.lt_of_le_of_ne f.fits hne
    -- the same value with the bit behind the field turned over
    have hflip := hr (v ^^^ BitVec.twoPow 32 (f.offset + f.width)) (by
      intro i hi
      have hbehind : f.offset + f.width ≠ i := by
        have := hi.2
        omega
      simp [BitVec.getLsbD_twoPow, hbehind])
    have hbit := (getLsbD_longGet hv f.width).symm.trans (getLsbD_longGet hflip f.width)
    simp [getLsbD_long, hlt] at hbit
  · rintro ⟨hlt, heq⟩
    obtain ⟨r, hr⟩ := Option.isSome_iff_exists.mp
      (longGet_isSome (v := L.long v) (o := f.offset).mpr hlt)
    refine ⟨r, fun u hu => ?_⟩
    obtain ⟨r', hr'⟩ := Option.isSome_iff_exists.mp
      (longGet_isSome (v := L.long u) (o := f.offset).mpr hlt)
    rw [hr']
    congr 1
    apply BitVec.eq_of_getLsbD_eq
    intro i _
    rw [getLsbD_longGet hr', getLsbD_longGet hr, getLsbD_long, getLsbD_long]
    by_cases hi : f.offset + i < 32
    · rw [hu _ ⟨Nat.le_add_right _ _, by omega⟩]
    · rw [BitVec.getLsbD_of_ge u _ (Nat.le_of_not_lt hi),
        BitVec.getLsbD_of_ge v _ (Nat.le_of_not_lt hi)]

theorem fieldLaws_iff : FieldLaws L v b f ↔
    L = .bits64 ∧ f.offset + f.width = 32 ∧ b.getLsbD f.width = false := by
  have hpos := f.pos
  constructor
  · intro h
    obtain ⟨hlt, hb⟩ := setThenGet_iff.mp h.setThenGet
    obtain ⟨-, heq⟩ := getsInside_iff.mp h.getsInside
    refine ⟨?_, heq, hb⟩
    cases L with
    | bits32 => exact absurd hlt (by simp [heq])
    | bits64 => rfl
  · rintro ⟨rfl, heq, hb⟩
    have hlt : f.offset + f.width < LongSize.bits64.bits := by
      rw [heq]
      decide
    refine ⟨setThenGet_iff.mpr ⟨hlt, hb⟩, setKeeps_iff.mpr ⟨hlt, by omega⟩, clearKeeps_iff.mpr
      ⟨hlt, ?_⟩, getsInside_iff.mpr ⟨by omega, heq⟩⟩
    rw [heq]
    exact BitVec.getLsbD_of_ge v 32 le_rfl

/-! ### The flags of a queue, and the status register -/

variable {flags : UInt32} {status : UInt16}

/-- The in-use flag is the same for the other direction. -/
def InUseIgnoresDir (flags : UInt32) : Prop :=
  ∀ g : UInt32, (∀ i, i ≠ flagsDirOffset → g.toNat.testBit i = flags.toNat.testBit i) →
    flagsGetInUse g = flagsGetInUse flags

/-- A queue is taken to be in use, or not, for either direction. -/
def ServedForAnyDir (flags : UInt32) : Prop :=
  ∀ g : UInt32, (∀ i, i ≠ flagsDirOffset → g.toNat.testBit i = flags.toNat.testBit i) →
    (flagsGetInUse g ≠ 0 ↔ flagsGetInUse flags ≠ 0)

/-- Of the flags, only the in-use bit is cleared. -/
def ClearsInUse (qs : QueueData) : Prop :=
  (markUnused qs).flags.toNat.testBit flagsInUseOffset = false ∧
    ∀ i, i ≠ flagsInUseOffset →
      (markUnused qs).flags.toNat.testBit i = qs.flags.toNat.testBit i

/-- The bus is busy whatever the other bits are. -/
def BusyIgnoresRest (status : UInt16) : Prop :=
  ∀ value : UInt16, value.toNat.testBit ioStatusRegBusyOffset =
      status.toNat.testBit ioStatusRegBusyOffset → ioBusy value = ioBusy status

theorem testBit_bfGet (v o w i : Nat) :
    (bfGet v o w).testBit i = (v.testBit (o + i) && decide (i ≤ w)) := by
  rw [bfGet, Nat.testBit_and, Nat.testBit_two_pow_sub_one, Nat.testBit_shiftRight]
  simp only [Nat.lt_succ_iff]

theorem testBit_flagsGetInUse (flags : UInt32) (i : Nat) :
    (flagsGetInUse flags).testBit i = (flags.toNat.testBit i && decide (i ≤ 1)) := by
  rw [flagsGetInUse, testBit_bfGet, flagsInUseOffset, flagsInUseWidth, Nat.zero_add]

theorem flagsGetInUse_eq_zero : flagsGetInUse flags = 0 ↔
    flags.toNat.testBit 0 = false ∧ flags.toNat.testBit 1 = false := by
  constructor
  · intro hzero
    have hbit := testBit_flagsGetInUse flags
    rw [hzero] at hbit
    constructor
    · simpa using (hbit 0).symm
    · simpa using (hbit 1).symm
  · rintro ⟨h0, h1⟩
    apply Nat.eq_of_testBit_eq
    intro i
    rw [testBit_flagsGetInUse, Nat.zero_testBit]
    rcases i with _ | _ | i
    · simp [h0]
    · simp [h1]
    · simp

/-- The flags of a queue for the other direction. -/
def turned (flags : UInt32) : UInt32 := flags ^^^ 2

theorem testBit_turned (i : Nat) :
    (turned flags).toNat.testBit i = (flags.toNat.testBit i ^^ decide (i = flagsDirOffset)) := by
  rw [turned, UInt32.toNat_xor, Nat.testBit_xor]
  congr 1
  rw [show (2 : UInt32).toNat = 2 ^ 1 from rfl, Nat.testBit_two_pow, flagsDirOffset]
  exact decide_eq_decide.mpr eq_comm

theorem not_inUseIgnoresDir : ¬ InUseIgnoresDir flags := by
  intro h
  have hsame := h (turned flags) fun i hi => by simp [testBit_turned, hi]
  have hbit := congrArg (fun k => Nat.testBit k 1) hsame
  simp [testBit_flagsGetInUse, testBit_turned, flagsDirOffset] at hbit

theorem servedForAnyDir_iff :
    ServedForAnyDir flags ↔ flags.toNat.testBit flagsInUseOffset = true := by
  rw [flagsInUseOffset]
  constructor
  · intro h
    by_contra hclear
    rw [Bool.not_eq_true] at hclear
    have hsame := h (turned flags) fun i hi => by simp [testBit_turned, hi]
    rw [ne_eq, ne_eq, flagsGetInUse_eq_zero, flagsGetInUse_eq_zero, testBit_turned, testBit_turned,
      hclear, flagsDirOffset] at hsame
    cases hdir : flags.toNat.testBit 1 <;> simp [hdir] at hsame
  · intro hset g hg
    have hgset : g.toNat.testBit 0 = true := (hg 0 (by decide)).trans hset
    simp [flagsGetInUse_eq_zero, hset, hgset]

theorem testBit_markUnused {qs : QueueData} (i : Nat) :
    (markUnused qs).flags.toNat.testBit i = (qs.flags.toNat.testBit i && !decide (i ≤ 1)) := by
  by_cases hi : i < 32
  · rw [markUnused, UInt32.toNat_and, Nat.testBit_and, ← UInt32.toNat_toBitVec (~~~ _),
      BitVec.testBit_toNat, UInt32.toBitVec_not, BitVec.getLsbD_not, ← BitVec.testBit_toNat,
      UInt32.toNat_toBitVec, UInt32.toNat_ofNat', Nat.testBit_mod_two_pow, testBit_flagsGetInUse]
    cases qs.flags.toNat.testBit i <;> simp [hi]
  · have hle : 2 ^ 32 ≤ 2 ^ i := Nat.pow_le_pow_right (by decide) (Nat.le_of_not_lt hi)
    rw [Nat.testBit_lt_two_pow (Nat.lt_of_lt_of_le (UInt32.toNat_lt _) hle),
      Nat.testBit_lt_two_pow (Nat.lt_of_lt_of_le (UInt32.toNat_lt _) hle), Bool.false_and]

/-- The direction bit is cleared along with the in-use bit. -/
theorem clearsInUse_iff {qs : QueueData} :
    ClearsInUse qs ↔ qs.flags.toNat.testBit flagsDirOffset = false := by
  unfold ClearsInUse
  rw [flagsInUseOffset, flagsDirOffset]
  constructor
  · rintro ⟨-, hkeep⟩
    rw [← hkeep 1 (by decide), testBit_markUnused]
    simp
  · intro hdir
    refine ⟨by rw [testBit_markUnused]; simp, fun i hi => ?_⟩
    rw [testBit_markUnused]
    rcases i with _ | _ | i
    · exact absurd rfl hi
    · simp [hdir]
    · simp

theorem ioBusy_iff :
    ioBusy status = true ↔ status.toNat.testBit 0 = true ∧ status.toNat.testBit 1 = false := by
  rw [ioBusy, ioStatusRegBusyOffset, ioStatusRegBusyWidth, ioStatusRegBusyValBusy, beq_iff_eq,
    bfGet_one, Nat.testBit_eq_decide_div_mod_eq, Nat.testBit_eq_decide_div_mod_eq,
    decide_eq_true_eq, decide_eq_false_iff_not]
  omega

theorem busyIgnoresRest_iff : BusyIgnoresRest status ↔
    status.toNat.testBit ioStatusRegBusyOffset = false := by
  unfold BusyIgnoresRest
  rw [ioStatusRegBusyOffset]
  constructor
  · intro h
    by_contra hset
    rw [Bool.not_eq_false] at hset
    -- a busy bus, with the bit behind the busy bit clear and set
    have h1 := h 1 (by rw [hset]; rfl)
    have h3 := h 3 (by rw [hset]; rfl)
    exact absurd (h1.trans h3.symm) (by decide)
  · intro hclear value hvalue
    rw [hclear] at hvalue
    have hidle : ioBusy status = false := by
      rw [← Bool.not_eq_true, ioBusy_iff, hclear]
      simp
    have hidle' : ioBusy value = false := by
      rw [← Bool.not_eq_true, ioBusy_iff, hvalue]
      simp
    rw [hidle, hidle']

/-- The laws of bit fields, and what they would mean for the flags and the status register: when
each of them holds. -/
theorem bitFields_iff (L : LongSize) (v b : BitVec 32) (f : Field) (qs : QueueData)
    (status : UInt16) :
    (FieldLaws L v b f ↔
      L = .bits64 ∧ f.offset + f.width = 32 ∧ b.getLsbD f.width = false) ∧
    (InUseIgnoresDir qs.flags ↔ False) ∧
    (ServedForAnyDir qs.flags ↔ qs.flags.toNat.testBit flagsInUseOffset = true) ∧
    (ClearsInUse qs ↔ qs.flags.toNat.testBit flagsDirOffset = false) ∧
    (BusyIgnoresRest status ↔ status.toNat.testBit ioStatusRegBusyOffset = false) :=
  ⟨fieldLaws_iff, iff_of_false not_inUseIgnoresDir id, servedForAnyDir_iff, clearsInUse_iff,
    busyIgnoresRest_iff⟩

def inUseField : Field := ⟨flagsInUseOffset, flagsInUseWidth, by decide, by decide⟩

/-- A queue from the slave, of 16 words, in use. -/
def s2mQueue : QueueData := ⟨0x100003, 0x1000, 0, 0⟩

/-- What is had back from a field of one bit has two bits; marked as unused, a queue from the slave
turns into one to the slave. -/
theorem bitFields_fail :
    ¬ FieldLaws .bits32 0 3 inUseField ∧ ¬ FieldLaws .bits64 0 3 inUseField ∧
    ¬ InUseIgnoresDir s2mQueue.flags ∧ ¬ ClearsInUse s2mQueue ∧ ¬ BusyIgnoresRest 1 := by
  refine ⟨fun h => ?_, fun h => ?_, not_inUseIgnoresDir, fun h => ?_, fun h => ?_⟩
  · exact absurd (setThenGet_iff.mp h.setThenGet).2 (by decide)
  · exact absurd (setThenGet_iff.mp h.setThenGet).2 (by decide)
  · exact absurd (clearsInUse_iff.mp h) (by decide)
  · exact absurd (busyIgnoresRest_iff.mp h) (by decide)

end MangOH.Mt7697q
