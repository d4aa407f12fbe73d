import MangOH.Json.Relaxed

/-! The numbers of JSON, and how `strtod` reads them. -/
namespace MangOH.Json

open JsonGrammar

variable {s r w : Bytes} {c : UInt8}

/-- A text that does not start with a byte of some kind. -/
def NotAhead (p : UInt8 → Bool) (r : Bytes) : Prop := ∀ c w, r = c :: w → p c = false

theorem notAhead_cons {p : UInt8 → Bool} (hc : p c = false) : NotAhead p (c :: s) := by
  intro c' w h
  cases h
  exact hc

theorem dropWhile_append {p : UInt8 → Bool} (hw : ∀ c ∈ w, p c = true) (hr : NotAhead p r) :
    (w ++ r).dropWhile p = r := by
  rw [List.dropWhile_append_of_pos hw]
  cases r with
  | nil => rfl
  | cons c r => rw [List.dropWhile_cons, if_neg (by simp [hr c r rfl])]

theorem isspace_cases (h : isspace c = true) :
    c = 0x20 ∨ c = 0x09 ∨ c = 0x0a ∨ c = 0x0b ∨ c = 0x0c ∨ c = 0x0d := by
  simp only [isspace, Bool.or_eq_true, beq_iff_eq, decide_eq_true_eq, UInt8.le_iff_toNat_le,
    ← UInt8.toNat_inj] at h ⊢
  simp at h ⊢
  omega

theorem endsValue_cases (h : endsValue (c :: s) = true) : c = 0x20 ∨ c = 0x09 ∨ c = 0x0a ∨
    c = 0x0b ∨ c = 0x0c ∨ c = 0x0d ∨ c = comma ∨ c = Bracket.array.closing ∨
    c = Bracket.object.closing := by
  simp only [endsValue, Bool.or_eq_true, beq_iff_eq] at h
  rcases h with ((h | h) | h) | h
  · rcases isspace_cases h with h | h | h | h | h | h <;> simp [h]
  all_goals simp [h]

theorem notAhead_endsValue {p : UInt8 → Bool} (h : endsValue r = true)
    (hp : ∀ c ∈ [0x20, 0x09, 0x0a, 0x0b, 0x0c, 0x0d, comma, Bracket.array.closing,
      Bracket.object.closing], p c = false) : NotAhead p r := by
  rintro c w rfl
  refine hp c ?_
  simpa using endsValue_cases h

theorem notAhead_exp {p : UInt8 → Bool} (hw : IsExp w) (hr : NotAhead p r)
    (he : p 0x65 = false ∧ p 0x45 = false) : NotAhead p (w ++ r) := by
  cases hw with
  | none => exact hr
  | some h =>
    rcases h with rfl | rfl
    · exact notAhead_cons he.1
    · exact notAhead_cons he.2

theorem notAhead_frac {p : UInt8 → Bool} (hw : IsFrac w) (hr : NotAhead p r)
    (hpoint : p 0x2e = false) : NotAhead p (w ++ r) := by
  cases hw with
  | none => exact hr
  | some => exact notAhead_cons hpoint

theorem dropSign_digits (hw : IsDigits w) : dropSign (w ++ r) = w ++ r := by
  obtain ⟨hne, hdigits⟩ := hw
  cases w with
  | nil => exact absurd rfl hne
  | cons c w =>
    have hc := hdigits c List.mem_cons_self
    rw [List.cons_append, dropSign, if_neg]
    rintro (rfl | rfl) <;> cases hc

theorem dropExponent_exp (hw : IsExp w) (hr : endsValue r = true) :
    dropExponent 0x65 (w ++ r) = r := by
  cases hw with
  | none =>
    rw [List.nil_append]
    cases r with
    | nil => rfl
    | cons c r =>
      have hc := notAhead_endsValue (p := fun c => tolower c == 0x65) hr (by decide +kernel) c r rfl
      rw [dropExponent, if_neg fun h => by simp [h.1] at hc]
  | @some e sign w he hsign hw =>
    have hsigned : dropSign (sign ++ (w ++ r)) = w ++ r := by
      rcases hsign with rfl | rfl | rfl
      · rw [List.nil_append]
        exact dropSign_digits hw
      · rfl
      · rfl
    have hdigits := dropWhile_append hw.2 (notAhead_endsValue (p := isDigit) hr (by decide +kernel))
    rw [List.cons_append, List.append_assoc, dropExponent, hsigned, hdigits, if_pos]
    refine ⟨by rcases he with rfl | rfl <;> rfl, ?_⟩
    have := List.length_pos_iff.mpr hw.1
    rw [List.length_append]
    omega

theorem dropDecimal_number {int frac exp : Bytes} (hint : IsDigits int) (hfrac : IsFrac frac)
    (hexp : IsExp exp) (hr : endsValue r = true) :
    dropDecimal (int ++ (frac ++ (exp ++ r))) = some r := by
  have hdigit : NotAhead isDigit (exp ++ r) :=
    notAhead_exp hexp (notAhead_endsValue hr (by decide +kernel)) (by decide)
  have hpos := List.length_pos_iff.mpr hint.1
  have hmantissa : dropMantissa isDigit (int ++ (frac ++ (exp ++ r))) = some (exp ++ r) := by
    unfold dropMantissa
    dsimp only
    rw [dropWhile_append hint.2 (notAhead_frac hfrac hdigit (by decide))]
    cases hfrac with
    | none =>
      have hpoint : NotAhead (· == 0x2e) (exp ++ r) :=
        notAhead_exp hexp (notAhead_endsValue hr (by decide +kernel)) (by decide)
      rw [List.nil_append, if_neg, if_neg]
      · simp only [List.length_append]
        omega
      · intro hhead
        obtain ⟨w, hw⟩ := List.head?_eq_some_iff.mp hhead
        exact absurd (hpoint _ w hw) (by decide)
    | @some ds hds =>
      have hrest := dropWhile_append hds.2 hdigit
      rw [List.cons_append, List.head?_cons, if_pos rfl, List.tail_cons, hrest, if_neg]
      simp only [List.length_append, List.length_cons]
      omega
  simp only [dropDecimal, hmantissa, Option.bind_eq_bind, Option.bind_some,
    dropExponent_exp hexp hr]
  rfl

theorem dropHexadecimal_number {int frac exp : Bytes} (hint : IsInt int) (hfrac : IsFrac frac)
    (hexp : IsExp exp) (hr : endsValue r = true) :
    dropHexadecimal (int ++ (frac ++ (exp ++ r))) = none := by
  have hx : NotAhead (fun c => tolower c == 0x78) (frac ++ (exp ++ r)) :=
    notAhead_frac hfrac (notAhead_exp hexp (notAhead_endsValue hr (by decide +kernel)) (by decide))
      (by decide)
  obtain ⟨⟨hne, hdigits⟩, hzero⟩ := hint
  have htext : dropText [0x30, 0x78] (int ++ (frac ++ (exp ++ r))) = none := by
    cases int with
    | nil => exact absurd rfl hne
    | cons d int =>
      rw [List.cons_append, dropText]
      split
      · next hd =>
        have hdigit := hdigits d List.mem_cons_self
        have hd : d = 0x30 := by
          unfold tolower at hd
          split at hd
          · next hupper =>
            simp only [isDigit, decide_eq_true_eq] at hdigit
            exact absurd (UInt8.le_trans hupper.1 hdigit.2) (by decide)
          · exact hd
        have hnil : int = [] := by
          have := hzero (by rw [hd]; rfl)
          simpa [hd] using this
        rw [hnil, List.nil_append]
        generalize frac ++ (exp ++ r) = rest at hx
        cases rest with
        | nil => rfl
        | cons c rest =>
          rw [dropText, if_neg]
          have := hx c rest rfl
          simpa using this
      · rfl
  simp [dropHexadecimal, htext]

/-- `strtod` reads all of a JSON number. -/
theorem strtod_number (hw : IsNumber w) (hr : endsValue r = true) : strtod (w ++ r) = some r := by
  obtain @⟨minus, int, frac, exp, hminus, hint, hfrac, hexp⟩ := hw
  have hsign : dropSign ((minus ++ (int ++ (frac ++ exp)) ++ r).dropWhile isspace) =
      int ++ (frac ++ (exp ++ r)) := by
    have hspace : NotAhead isspace (int ++ (frac ++ (exp ++ r))) := by
      obtain ⟨hne, hdigits⟩ := hint.1
      cases int with
      | nil => exact absurd rfl hne
      | cons d int =>
        refine notAhead_cons ?_
        cases hs : isspace d with
        | false => rfl
        | true =>
          have hd := hdigits d List.mem_cons_self
          rcases isspace_cases hs with rfl | rfl | rfl | rfl | rfl | rfl <;> cases hd
    simp only [List.append_assoc]
    rcases hminus with rfl | rfl
    · rw [List.nil_append, ← List.nil_append (int ++ _), dropWhile_append (by simp) hspace]
      exact dropSign_digits hint.1
    · rw [List.cons_append, List.dropWhile_cons, if_neg (by decide)]
      rfl
  unfold strtod
  dsimp only
  rw [hsign, dropHexadecimal_number hint hfrac hexp hr, dropDecimal_number hint.1 hfrac hexp hr]
  rfl

end MangOH.Json
