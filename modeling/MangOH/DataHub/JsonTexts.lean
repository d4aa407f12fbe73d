import MangOH.DataHub.HeldJsonTrace
import MangOH.DataHub.Rendering
import MangOH.Json.Parts

/-! The JSON texts that the hub makes and extracts, and its parser. -/
namespace MangOH.DataHub

open JsonGrammar Json Lib

variable {P : Platform} {s r w : Bytes} {sym : Symbol} {items : List (Bytes × Tree)} {d : Double}
  {longBits : Nat}

/-! ### JSON is printable -/

theorem zero_notMem_digits (hw : ∀ c ∈ w, isDigit c = true) : (0 : UInt8) ∉ w :=
  fun h => absurd (hw 0 h) (by decide)

theorem zero_notMem_number (hw : IsNumber w) : (0 : UInt8) ∉ w := by
  cases hw with
  | mk hminus hint hfrac hexp =>
    have hm : ∀ minus : Bytes, minus = [] ∨ minus = [0x2d] → (0 : UInt8) ∉ minus := by
      rintro minus (rfl | rfl) <;> decide
    have hf := zero_notMem_digits hint.1.2
    have hfrac' : ∀ frac, IsFrac frac → (0 : UInt8) ∉ frac := by
      intro frac h
      cases h with
      | none => simp
      | some hw => simpa using zero_notMem_digits hw.2
    have hexp' : ∀ exp, IsExp exp → (0 : UInt8) ∉ exp := by
      intro exp h
      cases h with
      | none => simp
      | some he hsign hw =>
        have hd := zero_notMem_digits hw.2
        rcases he with rfl | rfl <;> rcases hsign with rfl | rfl | rfl <;> simp [hd]
    simp [hm _ hminus, hf, hfrac' _ hfrac, hexp' _ hexp]

theorem zero_notMem_chars (hw : IsChars w) : (0 : UInt8) ∉ w := by
  have hhexDigit : ∀ c, isHexDigit c = true → 0 ≠ c := by
    rintro c hc rfl
    exact absurd hc (by decide)
  induction hw with
  | nil => simp
  | unescaped hc _ _ _ ih =>
    rw [List.mem_cons, not_or]
    refine ⟨?_, ih⟩
    rintro rfl
    exact absurd hc.1 (by decide)
  | multibyte hu _ ih =>
    rw [List.mem_append, not_or]
    exact ⟨fun h => absurd (le_of_mem_multibyte hu 0 h) (by decide), ih⟩
  | escape hc _ ih =>
    simp only [List.mem_cons, not_or]
    refine ⟨by decide, ?_, ih⟩
    rintro rfl
    exact absurd hc (by decide)
  | unicode hhex _ ih =>
    obtain ⟨ha, hb, hc, hd⟩ := hhex
    simp only [List.mem_cons, not_or]
    exact ⟨by decide, by decide, hhexDigit _ ha, hhexDigit _ hb, hhexDigit _ hc, hhexDigit _ hd,
      ih⟩

/-- Behind a byte that is not zero. -/
theorem zero_behind {c : UInt8} (hc : c ≠ 0) (hz : (0 : UInt8) ∈ c :: s) : (0 : UInt8) ∈ s := by
  rcases List.mem_cons.mp hz with rfl | hz
  · exact absurd rfl hc
  · exact hz

theorem zero_spaces (h : Spaces rfc8259 s r) (hz : (0 : UInt8) ∈ s) : (0 : UInt8) ∈ r := by
  induction h with
  | nil => exact hz
  | @cons c s r hc _ ih =>
    refine ih (zero_behind ?_ hz)
    rintro rfl
    exact absurd (show isWs 0 = true from hc) (by decide)

theorem zero_token (hw : (0 : UInt8) ∉ w) (hz : (0 : UInt8) ∈ w ++ r) : (0 : UInt8) ∈ r :=
  (List.mem_append.mp hz).resolve_left hw

theorem zero_quoted (hw : IsChars w) (hz : (0 : UInt8) ∈ quote :: (w ++ quote :: r)) :
    (0 : UInt8) ∈ r :=
  zero_behind (by decide) (zero_token (zero_notMem_chars hw) (zero_behind (by decide) hz))

/-- A zero in a JSON text is behind its end. -/
theorem zero_derives (h : Derives rfc8259 sym s r items) (hz : (0 : UInt8) ∈ s) :
    (0 : UInt8) ∈ r := by
  have hopening : ∀ k : Bracket, k.opening ≠ 0 := fun k => by cases k <;> decide
  have hclosing : ∀ k : Bracket, k.closing ≠ 0 := fun k => by cases k <;> decide
  induction h with
  | literal hw _ hs =>
    subst hs
    exact zero_token (by cases hw <;> decide) hz
  | number hn hs =>
    obtain ⟨w, hw, rfl⟩ := hn
    exact zero_token (zero_notMem_number hw) hz
  | string hw hs =>
    subst hs
    exact zero_quoted hw hz
  | empty k h _ => exact zero_behind (hclosing k) (zero_spaces h (zero_behind (hopening k) hz))
  | bracket k h _ _ ih => exact ih (zero_spaces h (zero_behind (hopening k) hz))
  | element _ ih => exact ih hz
  | member hw hs h₁ h₂ _ ih =>
    subst hs
    exact ih (zero_spaces h₂ (zero_behind (by decide) (zero_spaces h₁ (zero_quoted hw hz))))
  | last k _ h ih => exact zero_behind (hclosing k) (zero_spaces h (ih hz))
  | more k _ h _ ih ihr =>
    cases h with
    | comma h h₁ => exact ihr (zero_spaces h₁ (zero_behind (by decide) (zero_spaces h (ih hz))))
    | gap hgap _ => exact hgap.elim

/-- A JSON text is a C string. -/
theorem zero_notMem_text (h : IsText rfc8259 s) : (0 : UInt8) ∉ s := by
  obtain ⟨t, s₁, r, hs, hv, hr⟩ := h
  intro hz
  have hend := zero_spaces hr (zero_derives hv (zero_spaces hs hz))
  cases hend

/-! ### What the hub prints -/

theorem roundHalfEven_le (q n : Nat) : roundHalfEven q n ≤ q / n + 1 := by
  unfold roundHalfEven
  split
  · exact Nat.le_succ _
  · split
    · exact Nat.le_refl _
    · split
      · exact Nat.le_succ _
      · exact Nat.le_refl _

theorem ulps_lt {m : Nat} (hm : m < 2 ^ 63) : ∃ e ≤ 2047, Double.ulps m < 2 ^ (53 + e) := by
  have hfrac : m % 2 ^ 52 < 2 ^ 52 := Nat.mod_lt _ (by positivity)
  refine ⟨m / 2 ^ 52 - 1, by omega, ?_⟩
  have hpos : 0 < 2 ^ (m / 2 ^ 52 - 1) := by positivity
  unfold Double.ulps
  rw [Nat.pow_add]
  split
  · calc m % 2 ^ 52 < 2 ^ 53 * 1 := by omega
      _ ≤ 2 ^ 53 * 2 ^ (m / 2 ^ 52 - 1) := Nat.mul_le_mul_left _ hpos
  · exact Nat.mul_lt_mul_of_pos_right (by omega) hpos

/-- What is printed of a double fits the string buffers of the hub. -/
theorem length_printLf (d : Double) : (printLf d).length + 2 < hubMaxStringBytes := by
  have hsign : (if d.isNegative then ascii "-" else []).length ≤ 1 := by split <;> decide
  have hdigits : (fixedPoint 6
      (roundHalfEven (Double.ulps d.magnitude * 10 ^ 6) ulpsPerOne)).length ≤ 2200 := by
    obtain ⟨e, he, hulps⟩ := ulps_lt (m := d.magnitude) (Nat.mod_lt _ (by positivity))
    generalize Double.ulps d.magnitude = u at hulps
    have hround : roundHalfEven (u * 10 ^ 6) ulpsPerOne ≤ u * 10 ^ 6 + 1 :=
      Nat.le_trans (roundHalfEven_le _ _) (Nat.succ_le_succ (Nat.div_le_self _ _))
    generalize roundHalfEven (u * 10 ^ 6) ulpsPerOne = n at hround
    have hn : n / 10 ^ 6 < 2 ^ (53 + e + 1) := by
      rw [Nat.pow_succ]
      omega
    have hlog : Nat.log 10 (n / 10 ^ 6) < 53 + e + 1 :=
      Nat.lt_of_le_of_lt (Nat.log_anti_left (by decide) (by decide))
        (Nat.log_lt_of_lt_pow' (by omega) hn)
    rw [fixedPoint, decimalDigits, List.length_append, List.length_cons, length_lastDigits,
      length_lastDigits]
    omega
  have hbody : (if d.isFinite then
      fixedPoint 6 (roundHalfEven (Double.ulps d.magnitude * 10 ^ 6) ulpsPerOne)
      else if d.isNaN then ascii "nan" else ascii "inf").length ≤ 2200 := by
    split
    · exact hdigits
    · split <;> decide
  unfold printLf hubMaxStringBytes ioMaxStringValueLen
  rw [List.length_append]
  omega

/-! ### The hub and its parser -/

/-- The parser of the hub is that of `json.c`. -/
structure Platform.ParsesJson (P : Platform) (longBits : Nat) : Prop where
  isValid : ∀ text, P.jsonIsValid text = Json.jsonIsValid text
  extract : ∀ json spec,
    P.jsonExtract json spec = (Json.jsonExtract longBits hubMaxStringBytes json spec).toOption

theorem cString_text (h : IsText common s) : cString s = s := by
  obtain ⟨t, ht⟩ := h
  exact cString_of_noNul (zero_notMem_text ⟨t, common_rfc8259 ht⟩)

theorem isText_scalar {kind : Scalar} (h : Derives common .value w [] [([], .scalar kind s)]) :
    IsText common w := ⟨_, w, [], .nil _, h, .nil _⟩

/-- What the parser finds in a text that it reads as JSON does is such a text. -/
theorem keeps_common (hP : P.ParsesJson longBits) : P.Keeps (IsText common) where
  null := isText_scalar (.literal .null trivial rfl)
  boolean b := by
    cases b with
    | true => exact isText_scalar (.literal .true trivial rfl)
    | false => exact isText_scalar (.literal .false trivial rfl)
  extract json spec kind result hjson hex hkind := by
    rw [hP.extract] at hex
    have htext : IsText common result := by
      cases hfound : Json.jsonExtract longBits hubMaxStringBytes json spec with
      | error e =>
        rw [hfound] at hex
        cases hex
      | ok found =>
        rw [hfound] at hex
        cases hex
        exact isCommon_extracted hjson hfound hkind.symm
    rw [cString_text htext]
    exact htext

/-- The values that the hub can turn into JSON: numbers that are finite, and strings that can stand
between quotes as they are, do not end in a backslash, and leave room for the quotes. -/
def Value.CoercesToJson : Value → Prop
  | .numeric d => d.isFinite = true
  | .string text => IsChars text.bytes ∧ text.bytes.getLast? ≠ some backslash ∧
      text.bytes.length + 2 < hubMaxStringBytes
  | _ => True

theorem coercible_common (hprint : P.PrintsLf) {v : Value} (hv : v.CoercesToJson) :
    v.Coercible P (IsText common) := by
  have hgiven : ∀ {w : Bytes}, IsText common w → IsText common (cString w) := by
    intro w hw
    rw [cString_text hw]
    exact hw
  cases v with
  | numeric d =>
    have hwhole : printLf d = printLf d ++ [] := (List.append_nil _).symm
    have hlen := length_printLf d
    refine hgiven ?_
    rw [formatNumeric, hprint, if_pos (by omega)]
    exact isText_scalar (.number ⟨printLf d, isNumber_printLf hv, hwhole⟩ hwhole)
  | string text =>
    obtain ⟨hchars, hlast, hlen⟩ := hv
    refine hgiven ?_
    have hquoted : ascii "\"" ++ text.bytes ++ ascii "\"" =
        quote :: (text.bytes ++ quote :: []) := rfl
    rw [quoteString, hquoted, if_pos (by
      simp only [List.length_cons, List.length_append, List.length_nil]
      omega)]
    exact isText_scalar (.string ⟨hchars, hlast⟩ rfl)
  | _ => trivial

end MangOH.DataHub
