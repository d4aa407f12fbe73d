import Mathlib.Algebra.Field.Rat
import Mathlib.Algebra.Order.Ring.Nat
import Mathlib.Data.List.TakeWhile
import Mathlib.Data.Nat.Log
import Mathlib.Data.Rat.Cast.Defs
import Mathlib.Tactic.FieldSimp
import Mathlib.Tactic.NormNum
import Mathlib.Tactic.Ring
import MangOH.Lib.JsonGrammar

/-! What the numbers and strings of JSON stand for, and numbers in fixed-point notation. -/
namespace MangOH.JsonGrammar

variable {w r s t : Bytes} {c : UInt8} {k m n : Nat}

/-! ### Numbers -/

/-- The number that digits stand for. -/
def digitsValue (w : Bytes) : Nat := w.foldl (fun n c => 10 * n + (c.toNat - 0x30)) 0

/-- The digits behind the point. -/
def fracDigits (w : Bytes) : Bytes :=
  if w.head? = some 0x2e then w.tail.takeWhile isDigit else []

/-- The power of ten that the exponent stands for. -/
def expScale (w : Bytes) : ℚ :=
  let exp := (w.dropWhile fun c => c != 0x65 && c != 0x45).tail
  if exp.head? = some 0x2d then 1 / (10 ^ digitsValue exp.tail : Nat)
  else if exp.head? = some 0x2b then (10 ^ digitsValue exp.tail : Nat)
  else (10 ^ digitsValue exp : Nat)

def unsignedValue (w : Bytes) : ℚ :=
  let frac := fracDigits (w.dropWhile isDigit)
  digitsValue (w.takeWhile isDigit ++ frac) / (10 ^ frac.length : Nat) * expScale w

/-- The number that a number of JSON stands for. -/
def numberValue (w : Bytes) : ℚ :=
  if w.head? = some 0x2d then -unsignedValue w.tail else unsignedValue w

/-! ### Strings -/

def hexValue (w : Bytes) : Nat :=
  w.foldl (fun n c => 16 * n + (if isDigit c then c.toNat - 0x30 else c.toNat % 0x20 + 9)) 0

/-- The characters that may follow a backslash, with the bytes they stand for. -/
def escapes : List (UInt8 × UInt8) :=
  [(quote, quote), (backslash, backslash), (0x2f, 0x2f), (0x62, 0x08), (0x66, 0x0c), (0x6e, 0x0a),
    (0x72, 0x0d), (0x74, 0x09)]

/-- What stands between the quotes, and the string it stands for, in UTF-8. -/
inductive StandsFor : Bytes → Bytes → Prop
  | nil : StandsFor [] []
  | plain {c : UInt8} {w s : Bytes} (hc : c ≠ backslash) (h : StandsFor w s) :
      StandsFor (c :: w) (c :: s)
  | escape {c b : UInt8} {w s : Bytes} (hc : (c, b) ∈ escapes) (h : StandsFor w s) :
      StandsFor (backslash :: c :: w) (b :: s)
  | unicode {u₁ u₂ u₃ u₄ : UInt8} {u : Char} {w s : Bytes}
      (hu : u.toNat = hexValue [u₁, u₂, u₃, u₄]) (h : StandsFor w s) :
      StandsFor (backslash :: 0x75 :: u₁ :: u₂ :: u₃ :: u₄ :: w) (String.utf8EncodeChar u ++ s)
  | surrogates {u₁ u₂ u₃ u₄ v₁ v₂ v₃ v₄ : UInt8} {u : Char} {w s : Bytes}
      (hhigh : 0xd800 ≤ hexValue [u₁, u₂, u₃, u₄] ∧ hexValue [u₁, u₂, u₃, u₄] ≤ 0xdbff)
      (hlow : 0xdc00 ≤ hexValue [v₁, v₂, v₃, v₄] ∧ hexValue [v₁, v₂, v₃, v₄] ≤ 0xdfff)
      (hu : u.toNat = 0x10000 + (hexValue [u₁, u₂, u₃, u₄] - 0xd800) * 0x400 +
        (hexValue [v₁, v₂, v₃, v₄] - 0xdc00)) (h : StandsFor w s) :
      StandsFor (backslash :: 0x75 :: u₁ :: u₂ :: u₃ :: u₄ :: backslash :: 0x75 :: v₁ :: v₂ :: v₃ ::
        v₄ :: w) (String.utf8EncodeChar u ++ s)

theorem length_utf8EncodeChar_le (u : Char) : (String.utf8EncodeChar u).length ≤ 4 := by
  rw [String.length_utf8EncodeChar]
  exact u.utf8Size_le_four

/-- An escape is longer than what it stands for. -/
theorem StandsFor.length_le (h : StandsFor w s) :
    s.length ≤ w.length ∧ (backslash ∈ w → s.length < w.length) := by
  induction h with
  | nil => simp
  | plain hc _ ih =>
    obtain ⟨hle, hlt⟩ := ih
    refine ⟨Nat.succ_le_succ hle, fun hmem => ?_⟩
    rcases List.mem_cons.mp hmem with heq | hmem
    · exact absurd heq.symm hc
    · exact Nat.succ_lt_succ (hlt hmem)
  | escape _ _ ih =>
    simp only [List.length_cons]
    omega
  | @unicode _ _ _ _ u _ _ _ _ ih =>
    have hu := length_utf8EncodeChar_le u
    simp only [List.length_cons, List.length_append]
    omega
  | @surrogates _ _ _ _ _ _ _ _ u _ _ _ _ _ _ ih =>
    have hu := length_utf8EncodeChar_le u
    simp only [List.length_cons, List.length_append]
    omega

theorem standsFor_self : StandsFor w w ↔ backslash ∉ w := by
  constructor
  · intro h hmem
    exact absurd (h.length_le.2 hmem) (Nat.lt_irrefl _)
  · intro h
    induction w with
    | nil => exact .nil
    | cons c w ih =>
      rw [List.mem_cons, not_or] at h
      exact .plain (Ne.symm h.1) (ih h.2)

/-! ### Fixed-point notation -/

def digit (n : Nat) : UInt8 := UInt8.ofNat (0x30 + n % 10)

/-- The last digits of a number, as many as these. -/
def lastDigits : Nat → Nat → Bytes
  | 0, _ => []
  | k + 1, n => lastDigits k (n / 10) ++ [digit n]

/-- All the digits of a number. -/
def decimalDigits (n : Nat) : Bytes := lastDigits (Nat.log 10 n + 1) n

/-- A number of units, of which there are `10 ^ k` in one, with `k` digits behind the point. -/
def fixedPoint (k n : Nat) : Bytes :=
  decimalDigits (n / 10 ^ k) ++ 0x2e :: lastDigits k (n % 10 ^ k)

theorem toNat_digit (n : Nat) : (digit n).toNat = 0x30 + n % 10 := by
  unfold digit
  rw [UInt8.toNat_ofNat']
  omega

theorem isDigit_digit (n : Nat) : isDigit (digit n) = true := by
  have hn := toNat_digit n
  simp only [isDigit, decide_eq_true_eq, UInt8.le_iff_toNat_le, hn]
  refine ⟨Nat.le_add_right _ _, ?_⟩
  show 0x30 + n % 10 ≤ 0x39
  omega

theorem length_lastDigits (k n : Nat) : (lastDigits k n).length = k := by
  induction k generalizing n with
  | zero => rfl
  | succ k ih => rw [lastDigits, List.length_append, ih, List.length_singleton]

theorem isDigit_lastDigits (k n : Nat) : ∀ c ∈ lastDigits k n, isDigit c = true := by
  induction k generalizing n with
  | zero => simp [lastDigits]
  | succ k ih =>
    intro c hc
    rcases List.mem_append.mp hc with hc | hc
    · exact ih _ c hc
    · rw [List.mem_singleton.mp hc]
      exact isDigit_digit n

theorem digitsValue_append (w : Bytes) (c : UInt8) :
    digitsValue (w ++ [c]) = 10 * digitsValue w + (c.toNat - 0x30) := by
  simp [digitsValue]

theorem digitsValue_lastDigits (w : Bytes) (k n : Nat) :
    digitsValue (w ++ lastDigits k n) = digitsValue w * 10 ^ k + n % 10 ^ k := by
  induction k generalizing n with
  | zero => simp [lastDigits, Nat.mod_one]
  | succ k ih =>
    rw [lastDigits, ← List.append_assoc, digitsValue_append, ih, toNat_digit]
    have hmod : n % 10 ^ (k + 1) = 10 * (n / 10 % 10 ^ k) + n % 10 := by
      rw [Nat.pow_succ, Nat.mul_comm, Nat.mod_mul]
      omega
    rw [hmod, Nat.pow_succ]
    ring_nf
    omega

theorem digitsValue_decimalDigits (n : Nat) : digitsValue (decimalDigits n) = n := by
  have h := digitsValue_lastDigits [] (Nat.log 10 n + 1) n
  rw [List.nil_append] at h
  have hlt : n < 10 ^ (Nat.log 10 n + 1) := Nat.lt_pow_succ_log_self (by decide) n
  rw [decimalDigits, h, Nat.mod_eq_of_lt hlt]
  simp [digitsValue]

theorem lastDigits_cons (k n : Nat) :
    lastDigits (k + 1) n = digit (n / 10 ^ k) :: lastDigits k n := by
  induction k generalizing n with
  | zero => simp [lastDigits]
  | succ k ih =>
    rw [lastDigits, ih, lastDigits, Nat.div_div_eq_div_mul, ← Nat.pow_succ', List.cons_append]

theorem isInt_decimalDigits (n : Nat) : IsInt (decimalDigits n) := by
  have hcons := lastDigits_cons (Nat.log 10 n) n
  refine ⟨⟨?_, isDigit_lastDigits _ n⟩, fun hhead => ?_⟩
  · rw [decimalDigits, hcons]
    exact List.cons_ne_nil _ _
  · rw [decimalDigits, hcons] at hhead ⊢
    have hzero := congrArg UInt8.toNat (Option.some.inj hhead)
    rw [toNat_digit] at hzero
    by_cases hlog : Nat.log 10 n = 0
    · rw [hlog] at hhead ⊢
      rw [Option.some.inj hhead]
      rfl
    · -- the first of several digits is not zero
      have hn : n ≠ 0 := by
        rintro rfl
        exact hlog (Nat.log_zero_right 10)
      have hlow := Nat.pow_log_le_self 10 hn
      have hhigh : n < 10 ^ (Nat.log 10 n + 1) := Nat.lt_pow_succ_log_self (by decide) n
      have hpos : 0 < 10 ^ Nat.log 10 n := Nat.pow_pos (by decide)
      have hone : 1 ≤ n / 10 ^ Nat.log 10 n := (Nat.one_le_div_iff hpos).mpr hlow
      have hten : n / 10 ^ Nat.log 10 n < 10 := by
        rw [Nat.div_lt_iff_lt_mul hpos, ← Nat.pow_succ']
        exact hhigh
      have hsame : (0x30 : UInt8).toNat = 0x30 := rfl
      omega

theorem isNumber_fixedPoint {minus : Bytes} (hminus : minus = [] ∨ minus = [0x2d]) (hk : 0 < k)
    (n : Nat) : IsNumber (minus ++ fixedPoint k n) := by
  have hfrac : IsDigits (lastDigits k (n % 10 ^ k)) := by
    refine ⟨?_, isDigit_lastDigits k _⟩
    rw [← List.length_pos_iff, length_lastDigits]
    exact hk
  have h := IsNumber.mk hminus (isInt_decimalDigits (n / 10 ^ k)) (.some hfrac) .none
  rwa [List.append_nil] at h

theorem takeWhile_digits (hw : ∀ c ∈ w, isDigit c = true) (hr : r.head?.any isDigit = false) :
    (w ++ r).takeWhile isDigit = w ∧ (w ++ r).dropWhile isDigit = r := by
  rw [List.takeWhile_append_of_pos hw, List.dropWhile_append_of_pos hw]
  cases r with
  | nil => simp
  | cons c r =>
    have hc : ¬ isDigit c = true := by simpa using hr
    rw [List.takeWhile_cons_of_neg hc, List.dropWhile_cons_of_neg hc, List.append_nil]
    exact ⟨rfl, rfl⟩

theorem unsignedValue_fixedPoint (k n : Nat) :
    unsignedValue (fixedPoint k n) = n / (10 ^ k : Nat) := by
  have hint := isDigit_lastDigits (Nat.log 10 (n / 10 ^ k) + 1) (n / 10 ^ k)
  have hlast := isDigit_lastDigits k (n % 10 ^ k)
  obtain ⟨htake, hdrop⟩ := takeWhile_digits (r := 0x2e :: lastDigits k (n % 10 ^ k)) hint rfl
  have hfrac : fracDigits (0x2e :: lastDigits k (n % 10 ^ k)) = lastDigits k (n % 10 ^ k) := by
    have h := (takeWhile_digits (r := []) hlast rfl).1
    rw [List.append_nil] at h
    exact h
  have hvalue : digitsValue (decimalDigits (n / 10 ^ k) ++ lastDigits k (n % 10 ^ k)) = n := by
    rw [digitsValue_lastDigits, digitsValue_decimalDigits, Nat.mod_mod, Nat.div_add_mod']
  have hexp : (fixedPoint k n).dropWhile (fun c => c != 0x65 && c != 0x45) = [] := by
    refine List.dropWhile_eq_nil_iff.mpr fun c hc => ?_
    have hmark : ∀ c, isDigit c = true ∨ c = 0x2e → (c != 0x65 && c != 0x45) = true := by
      rintro c (hdigit | rfl)
      · rw [Bool.and_eq_true, bne_iff_ne, bne_iff_ne]
        constructor <;> rintro rfl <;> cases hdigit
      · rfl
    refine hmark c ?_
    rcases List.mem_append.mp hc with hc | hc
    · exact .inl (hint c hc)
    · rcases List.mem_cons.mp hc with heq | hc
      · exact .inr heq
      · exact .inl (hlast c hc)
  have hscale : expScale (fixedPoint k n) = 1 := by
    unfold expScale
    rw [hexp]
    simp [digitsValue]
  unfold unsignedValue
  rw [hscale, mul_one]
  unfold fixedPoint
  unfold decimalDigits at *
  rw [hdrop, htake, hfrac, hvalue, length_lastDigits]

theorem head_fixedPoint (k n : Nat) : (fixedPoint k n).head?.any isDigit = true := by
  unfold fixedPoint decimalDigits
  rw [lastDigits_cons, List.cons_append]
  exact isDigit_digit _

theorem numberValue_fixedPoint (k n : Nat) :
    numberValue (fixedPoint k n) = n / (10 ^ k : Nat) ∧
      numberValue (0x2d :: fixedPoint k n) = -(n / (10 ^ k : Nat)) := by
  have hhead := head_fixedPoint k n
  have hminus : (fixedPoint k n).head? ≠ some 0x2d := by
    intro heq
    rw [heq] at hhead
    cases hhead
  unfold numberValue
  rw [if_neg hminus, unsignedValue_fixedPoint]
  refine ⟨rfl, ?_⟩
  rw [List.head?_cons, if_pos rfl, List.tail_cons, unsignedValue_fixedPoint]

/-! ### Where a number ends -/

/-- The bytes of which numbers are made. -/
def isNumeric (c : UInt8) : Bool := isDigit c || c ∈ ([0x2b, 0x2d, 0x2e, 0x45, 0x65] : Bytes)

theorem numeric_digits (hw : IsDigits w) : ∀ c ∈ w, isNumeric c = true := fun c hc => by
  simp [isNumeric, hw.2 c hc]

theorem IsNumber.numeric (hw : IsNumber w) : ∀ c ∈ w, isNumeric c = true := by
  obtain ⟨hminus, hint, hfrac, hexp⟩ := hw
  intro c hc
  simp only [List.mem_append] at hc
  rcases hc with hc | hc | hc | hc
  · rcases hminus with rfl | rfl
    · cases hc
    · rw [List.mem_singleton.mp hc]
      decide
  · exact numeric_digits hint.1 c hc
  · cases hfrac with
    | none => cases hc
    | some hw =>
      rcases List.mem_cons.mp hc with rfl | hc
      · decide
      · exact numeric_digits hw c hc
  · cases hexp with
    | none => cases hc
    | some he hsign hw =>
      rcases List.mem_cons.mp hc with rfl | hc
      · rcases he with rfl | rfl <;> decide
      · rcases List.mem_append.mp hc with hc | hc
        · rcases hsign with rfl | rfl | rfl
          · cases hc
          · rw [List.mem_singleton.mp hc]
            decide
          · rw [List.mem_singleton.mp hc]
            decide
        · exact numeric_digits hw c hc

/-- In front of a byte that is not part of a number, a number is all that could be one. -/
theorem IsNumber.takeWhile (hw : IsNumber w) (hr : r.head?.any isNumeric = false) :
    (w ++ r).takeWhile isNumeric = w := by
  rw [List.takeWhile_append_of_pos hw.numeric]
  cases r with
  | nil => simp
  | cons c r =>
    have hc : ¬ isNumeric c = true := by simpa using hr
    rw [List.takeWhile_cons_of_neg hc, List.append_nil]

/-! ### Where a string ends -/

theorem IsMultibyte.high {u : Bytes} (hu : IsMultibyte u) : ∃ c v, u = c :: v ∧ 0xc2 ≤ c := by
  cases hu with
  | two ha => exact ⟨_, _, rfl, ha.1⟩
  | three ha =>
    refine ⟨_, _, rfl, ?_⟩
    have h := ha.1
    rw [UInt8.le_iff_toNat_le] at h ⊢
    exact Nat.le_trans (by decide) h
  | four ha =>
    refine ⟨_, _, rfl, ?_⟩
    have h := ha.1
    rw [UInt8.le_iff_toNat_le] at h ⊢
    exact Nat.le_trans (by decide) h

/-- What is in front of the first quote is empty if it starts with one. -/
theorem IsChars.head_ne_quote (hw : IsChars w) : w.head? ≠ some quote := by
  cases hw with
  | nil => simp
  | unescaped _ hquote => simpa using hquote
  | multibyte hu =>
    obtain ⟨c, v, rfl, hc⟩ := hu.high
    simp only [List.cons_append, List.head?_cons, ne_eq, Option.some.injEq]
    rintro rfl
    exact absurd hc (by decide)
  | escape => simp [quote, backslash]
  | unicode => simp [quote, backslash]

/-- A name of one letter. -/
theorem IsChars.single (hw : IsChars w) (hlow : c < 0x80) (hback : c ≠ backslash)
    (hquote : c ≠ quote) (h : w ++ quote :: s = c :: quote :: t) : w = [c] ∧ s = t := by
  cases hw with
  | nil => exact absurd (List.cons.inj h).1.symm hquote
  | @unescaped a w _ _ _ hw =>
    obtain ⟨rfl, htail⟩ := List.cons.inj h
    have hhead := hw.head_ne_quote
    rcases w with _ | ⟨b, w⟩
    · exact ⟨rfl, (List.cons.inj htail).2⟩
    · exact absurd (congrArg some (List.cons.inj htail).1) hhead
  | multibyte hu =>
    obtain ⟨a, v, rfl, ha⟩ := hu.high
    obtain ⟨rfl, -⟩ := List.cons.inj h
    rw [UInt8.le_iff_toNat_le] at ha
    rw [UInt8.lt_iff_toNat_lt] at hlow
    exact absurd (Nat.lt_of_le_of_lt ha hlow) (by decide)
  | escape => exact absurd (List.cons.inj h).1.symm hback
  | unicode => exact absurd (List.cons.inj h).1.symm hback

end MangOH.JsonGrammar
