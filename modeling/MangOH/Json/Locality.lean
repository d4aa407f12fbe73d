import MangOH.Json.Numbers

/-! Scanning a value does not depend on what follows it, beyond the next byte. -/
namespace MangOH.Json

open JsonGrammar

variable {s r r' w : Bytes} {c : UInt8} {k : Bracket} {sym : Symbol} {t : Tree}
  {items : List (Bytes × Tree)}

/-! ### Numbers -/

/-- A byte that no part of a number contains. -/
structure Stops (c : UInt8) : Prop where
  alnum : isalnum c = false
  hexDigit : isHexDigit c = false
  others : c ≠ 0x2b ∧ c ≠ 0x2d ∧ c ≠ 0x2e ∧ c ≠ 0x28 ∧ c ≠ 0x29 ∧ c ≠ 0x5f
  lower : tolower c = c

theorem stops_endsValue (h : endsValue (c :: s) = true) : Stops c := by
  rcases endsValue_cases h with rfl | rfl | rfl | rfl | rfl | rfl | rfl | rfl | rfl <;>
    exact ⟨by decide, by decide, by decide, by decide⟩

theorem Stops.digit (h : Stops c) : isDigit c = false := by
  have halnum := h.alnum
  rw [isalnum, Bool.or_eq_false_iff] at halnum
  exact halnum.2

/-- What a scanner leaves of a text in front of a byte does not depend on what follows the byte. -/
def Uniform (c : UInt8) (f : Bytes → Option Bytes) : Prop :=
  ∀ w, (∀ r, f (w ++ c :: r) = none) ∨ ∃ v, ∀ r, f (w ++ c :: r) = some (v ++ c :: r)

theorem Uniform.bind {f g : Bytes → Option Bytes} (hf : Uniform c f) (hg : Uniform c g) :
    Uniform c fun s => f s >>= g := by
  intro w
  rcases hf w with hnone | ⟨v, hv⟩
  · exact .inl fun r => by simp only [hnone, Option.bind_eq_bind, Option.bind_none]
  · rcases hg v with hnone | ⟨v', hv'⟩
    · exact .inl fun r => by simp only [hv, hnone, Option.bind_eq_bind, Option.bind_some]
    · exact .inr ⟨v', fun r => by simp only [hv, hv', Option.bind_eq_bind, Option.bind_some]⟩

theorem Uniform.or {f g : Bytes → Option Bytes} (hf : Uniform c f) (hg : Uniform c g) :
    Uniform c fun s => (f s).or (g s) := by
  intro w
  rcases hf w with hnone | ⟨v, hv⟩
  · simpa only [hnone, Option.none_or] using hg w
  · exact .inr ⟨v, fun r => by simp only [hv, Option.some_or]⟩

theorem dropWhile_uniform {p : UInt8 → Bool} (hc : p c = false) (w r : Bytes) :
    (w ++ c :: r).dropWhile p = w.dropWhile p ++ c :: r := by
  induction w with
  | nil => simp [hc]
  | cons a w ih =>
    rw [List.cons_append, List.dropWhile_cons, List.dropWhile_cons]
    split
    · exact ih
    · rfl

theorem dropSign_uniform (hc : Stops c) (w r : Bytes) :
    dropSign (w ++ c :: r) = dropSign w ++ c :: r := by
  cases w with
  | nil =>
    have hsign : ¬ (c = 0x2b ∨ c = 0x2d) := not_or.mpr ⟨hc.others.1, hc.others.2.1⟩
    rw [List.nil_append, dropSign, if_neg hsign]
    rfl
  | cons a w =>
    rw [List.cons_append, dropSign, dropSign]
    split <;> rfl

theorem uniform_dropText {text : Bytes} (hc : Stops c) (htext : c ∉ text) :
    Uniform c (dropText text) := by
  intro w
  induction text generalizing w with
  | nil => exact .inr ⟨w, fun r => rfl⟩
  | cons a text ih =>
    obtain ⟨ha, htext⟩ := not_or.mp fun hmem => htext (List.mem_cons.mpr hmem)
    cases w with
    | nil =>
      refine .inl fun r => ?_
      rw [List.nil_append, dropText, if_neg (by rw [hc.lower]; exact ha)]
    | cons b w =>
      by_cases hb : tolower b = a
      · simpa only [List.cons_append, dropText, if_pos hb] using ih htext w
      · exact .inl fun r => by rw [List.cons_append, dropText, if_neg hb]

theorem length_uniform (v w r : Bytes) :
    (v ++ c :: r).length = (w ++ c :: r).length ↔ v.length = w.length := by
  rw [List.length_append, List.length_append]
  omega

theorem head_uniform {d : UInt8} (hcd : c ≠ d) (w r : Bytes) :
    (w ++ c :: r).head? = some d ↔ w.head? = some d := by
  cases w with
  | nil => simpa using hcd
  | cons a w => rfl

theorem tail_uniform {d : UInt8} (hw : w.head? = some d) (r : Bytes) :
    (w ++ c :: r).tail = w.tail ++ c :: r := by
  cases w with
  | nil => cases hw
  | cons a w => rfl

theorem uniform_dropMantissa {digit : UInt8 → Bool} (hc : Stops c) (hdigit : digit c = false) :
    Uniform c (dropMantissa digit) := by
  intro w
  simp only [dropMantissa, dropWhile_uniform hdigit, head_uniform hc.others.2.2.1, length_uniform]
  by_cases hpoint : (w.dropWhile digit).head? = some 0x2e
  · simp only [if_pos hpoint, tail_uniform hpoint, dropWhile_uniform hdigit, length_uniform]
    split
    · exact .inl fun r => rfl
    · exact .inr ⟨_, fun r => rfl⟩
  · simp only [if_neg hpoint]
    split
    · exact .inl fun r => rfl
    · exact .inr ⟨_, fun r => rfl⟩

theorem uniform_dropExponent {mark : UInt8} (hc : Stops c) (hmark : c ≠ mark) :
    Uniform c fun s => some (dropExponent mark s) := by
  intro w
  cases w with
  | nil =>
    refine .inr ⟨[], fun r => ?_⟩
    have hlower : ¬ tolower c = mark := by rwa [hc.lower]
    simp only [List.nil_append, dropExponent, if_neg fun h : _ ∧ _ => hlower h.1]
  | cons a w =>
    simp only [List.cons_append, dropExponent, dropSign_uniform hc, dropWhile_uniform hc.digit,
      List.length_append, Nat.add_lt_add_iff_right]
    split
    · exact .inr ⟨_, fun r => rfl⟩
    · exact .inr ⟨a :: w, fun r => rfl⟩

theorem uniform_dropNanChars (hc : Stops c) : Uniform c fun s => some (dropNanChars s) := by
  intro w
  cases w with
  | nil =>
    refine .inr ⟨[], fun r => ?_⟩
    simp only [List.nil_append, dropNanChars, if_neg fun h : _ ∧ _ => hc.others.2.2.2.1 h.1]
  | cons a w =>
    have hstop : (fun c => isalnum c || c == 0x5f) c = false := by
      simp only [hc.alnum, Bool.false_or, beq_false_of_ne hc.others.2.2.2.2.2]
    simp only [List.cons_append, dropNanChars,
      dropWhile_uniform (p := fun c => isalnum c || c == 0x5f) hstop,
      head_uniform hc.others.2.2.2.2.1]
    split
    · next h => exact .inr ⟨_, fun r => congrArg some (tail_uniform h.2 r)⟩
    · exact .inr ⟨a :: w, fun r => rfl⟩

theorem Stops.notMem {text : Bytes} (hc : Stops c) (htext : text.all isalnum = true) :
    c ∉ text := fun hmem => absurd (List.all_eq_true.mp htext c hmem) (by rw [hc.alnum]; simp)

theorem uniform_dropHexadecimal (hc : Stops c) : Uniform c dropHexadecimal :=
  (uniform_dropText hc (hc.notMem (by decide))).bind
    ((uniform_dropMantissa hc hc.hexDigit).bind (uniform_dropExponent hc (by
      rintro rfl
      exact absurd hc.alnum (by decide))))

theorem uniform_dropDecimal (hc : Stops c) : Uniform c dropDecimal :=
  (uniform_dropMantissa hc hc.digit).bind (uniform_dropExponent hc (by
    rintro rfl
    exact absurd hc.alnum (by decide)))

theorem uniform_dropInfinity (hc : Stops c) : Uniform c dropInfinity := by
  refine (uniform_dropText hc (hc.notMem (by decide))).bind fun w => ?_
  have hrest : Uniform c (dropText [0x69, 0x6e, 0x69, 0x74, 0x79]) :=
    uniform_dropText hc (hc.notMem (by decide))
  rcases hrest w with hnone | ⟨v, hv⟩
  · exact .inr ⟨w, fun r => by rw [hnone]; rfl⟩
  · exact .inr ⟨v, fun r => by rw [hv]; rfl⟩

theorem uniform_dropNan (hc : Stops c) : Uniform c dropNan :=
  (uniform_dropText hc (hc.notMem (by decide))).bind (uniform_dropNanChars hc)

/-- A number that ends in front of a byte ends there whatever follows that byte. -/
theorem strtod_stops (hc : Stops c) (hne : w ≠ []) (hstart : NoSpace w)
    (h : strtod (w ++ c :: r) = some (c :: r)) (r' : Bytes) :
    strtod (w ++ c :: r') = some (c :: r') := by
  have huniform := (uniform_dropHexadecimal hc).or ((uniform_dropDecimal hc).or
    ((uniform_dropInfinity hc).or (uniform_dropNan hc)))
  have hspace : ∀ r : Bytes, (w ++ c :: r).dropWhile isspace = w ++ c :: r := by
    intro r
    cases w with
    | nil => exact absurd rfl hne
    | cons a w => rw [List.cons_append, List.dropWhile_cons, if_neg (by simp [hstart a w rfl])]
  unfold strtod at h ⊢
  simp only [hspace, dropSign_uniform hc] at h ⊢
  rcases huniform (dropSign w) with hnone | ⟨v, hv⟩
  · cases (hnone r).symm.trans h
  · have hempty := (hv r).symm.trans h
    obtain rfl : v = [] := by simpa using hempty
    exact hv r'

/-! ### Values -/

theorem relaxed_local : relaxed.Local where
  ends r r' hhead hr := by
    cases r with
    | nil =>
      cases r' with
      | nil => exact hr
      | cons => cases hhead
    | cons c r =>
      cases r' with
      | nil => cases hhead
      | cons c' r' =>
        cases hhead
        exact hr
  number w r r' hhead hn := by
    obtain ⟨hnum, hends, hstart⟩ := hn
    have hne : w ≠ [] := by
      rintro rfl
      exact absurd (plain_strtod hnum).2 (Nat.lt_irrefl _)
    obtain ⟨a, w, rfl⟩ := List.exists_cons_of_ne_nil hne
    cases r with
    | nil =>
      cases r' with
      | nil => exact ⟨hnum, hends, hstart⟩
      | cons => cases hhead
    | cons c r =>
      cases r' with
      | nil => cases hhead
      | cons c' r' =>
        cases hhead
        have hspace : isspace a = false := by
          simp only [List.cons_append, List.head?_cons, Option.any_some, startsNumber,
            Bool.and_eq_true, Bool.not_eq_true'] at hstart
          exact hstart.1
        exact ⟨strtod_stops (stops_endsValue hends) hne (noSpace_cons hspace)
          hnum r', hends, hstart⟩
  shorter _ _ hn := (plain_strtod hn.1).2
  start s r hn k hhead := by
    have hstart := hn.2.2
    rw [hhead] at hstart
    cases k <;> revert hstart <;> decide

/-- What a value is does not depend on what follows it, beyond the next byte; an array or an object
does not depend on that either. -/
theorem value_movable (h : Derives relaxed .value s r [([], t)]) :
    ∃ w, w ≠ [] ∧ s = w ++ r ∧
      ∀ r', ((∀ k : Bracket, s.head? ≠ some k.opening) → r.head? = r'.head?) →
      Derives relaxed .value (w ++ r') r' [([], t)] := by
  obtain ⟨w, hne, hs, hmoved⟩ := h.movable relaxed_local
  exact ⟨w, hne, hs, fun r' hhead => hmoved r' fun _ => hhead⟩

end MangOH.Json
