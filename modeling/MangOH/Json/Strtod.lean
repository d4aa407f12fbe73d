import MangOH.Lib.JsonGrammar

/-! The functions of the C library that the JSON parser calls, in the C locale. Of `strtod` only
the end of the number matters here. -/
namespace MangOH.Json

open JsonGrammar

variable {s r w : Bytes} {c : UInt8}

def isspace (c : UInt8) : Bool := c == 0x20 || decide (0x09 ≤ c ∧ c ≤ 0x0d)

def isalpha (c : UInt8) : Bool :=
  decide (0x41 ≤ c ∧ c ≤ 0x5a) || decide (0x61 ≤ c ∧ c ≤ 0x7a)

def isalnum (c : UInt8) : Bool := isalpha c || isDigit c

def tolower (c : UInt8) : UInt8 := if 0x41 ≤ c ∧ c ≤ 0x5a then c + 0x20 else c

/-- The rest after a text in lower case, which may be written in any case. -/
def dropText : Bytes → Bytes → Option Bytes
  | [], s => some s
  | _ :: _, [] => none
  | a :: w, c :: s => if tolower c = a then dropText w s else none

def dropSign : Bytes → Bytes
  | c :: s => if c = 0x2b ∨ c = 0x2d then s else c :: s
  | [] => []

/-- The rest after digits that may contain a point. -/
def dropMantissa (digit : UInt8 → Bool) (s : Bytes) : Option Bytes :=
  let rest := s.dropWhile digit
  if rest.head? = some 0x2e then
    let frac := rest.tail.dropWhile digit
    if rest.length = s.length ∧ frac.length = rest.tail.length then none else some frac
  else if rest.length = s.length then none
  else some rest

/-- The rest after an exponent, if there is one. -/
def dropExponent (mark : UInt8) : Bytes → Bytes
  | c :: s =>
    let rest := (dropSign s).dropWhile isDigit
    if tolower c = mark ∧ rest.length < (dropSign s).length then rest else c :: s
  | [] => []

/-- The rest after `(` n-char-sequence `)`, if that is what comes next. -/
def dropNanChars : Bytes → Bytes
  | c :: s =>
    let rest := s.dropWhile fun c => isalnum c || c == 0x5f
    if c = 0x28 ∧ rest.head? = some 0x29 then rest.tail else c :: s
  | [] => []

def dropHexadecimal (s : Bytes) : Option Bytes := do
  let s ← dropText [0x30, 0x78] s
  let s ← dropMantissa isHexDigit s
  pure (dropExponent 0x70 s)

def dropDecimal (s : Bytes) : Option Bytes := do
  let s ← dropMantissa isDigit s
  pure (dropExponent 0x65 s)

def dropInfinity (s : Bytes) : Option Bytes := do
  let s ← dropText [0x69, 0x6e, 0x66] s
  pure ((dropText [0x69, 0x6e, 0x69, 0x74, 0x79] s).getD s)

def dropNan (s : Bytes) : Option Bytes := do
  let s ← dropText [0x6e, 0x61, 0x6e] s
  pure (dropNanChars s)

/-- `strtod`: the text at `endPtr`, or `none` if no conversion can be performed. -/
def strtod (s : Bytes) : Option Bytes :=
  let s := dropSign (s.dropWhile isspace)
  (dropHexadecimal s).or ((dropDecimal s).or ((dropInfinity s).or (dropNan s)))

/-! ### What `strtod` passes over -/

/-- Neither quotes nor backslashes stand between two places of a text. -/
def Plain (s r : Bytes) : Prop := ∃ w, s = w ++ r ∧ quote ∉ w ∧ backslash ∉ w

theorem Plain.refl (s : Bytes) : Plain s s := ⟨[], rfl, by simp, by simp⟩

theorem Plain.trans {s₁ : Bytes} (h : Plain s s₁) (h₁ : Plain s₁ r) : Plain s r := by
  obtain ⟨w, rfl, hq, hb⟩ := h
  obtain ⟨w₁, rfl, hq₁, hb₁⟩ := h₁
  exact ⟨w ++ w₁, by simp, by simp [hq, hq₁], by simp [hb, hb₁]⟩

theorem Plain.cons (hq : c ≠ quote) (hb : c ≠ backslash) : Plain (c :: s) s :=
  ⟨[c], rfl, by simpa using hq.symm, by simpa using hb.symm⟩

theorem Plain.length_le (h : Plain s r) : r.length ≤ s.length := by
  obtain ⟨w, rfl, _⟩ := h
  simp

theorem plain_dropWhile {p : UInt8 → Bool} (hq : p quote = false) (hb : p backslash = false)
    (s : Bytes) : Plain s (s.dropWhile p) := by
  induction s with
  | nil => exact .refl _
  | cons c s ih =>
    rw [List.dropWhile_cons]
    split
    · next hc =>
      refine (Plain.cons ?_ ?_).trans ih
      · rintro rfl
        rw [hq] at hc
        cases hc
      · rintro rfl
        rw [hb] at hc
        cases hc
    · exact .refl _

theorem plain_dropText (hw : ∀ a ∈ w, a ≠ quote ∧ a ≠ backslash) (h : dropText w s = some r) :
    Plain s r := by
  induction w generalizing s with
  | nil =>
    cases h
    exact .refl _
  | cons a w ih =>
    cases s with
    | nil => cases h
    | cons c s =>
      rw [dropText] at h
      split at h
      · next hc =>
        obtain ⟨ha, hb⟩ := hw a List.mem_cons_self
        refine (Plain.cons ?_ ?_).trans (ih (fun a h => hw a (List.mem_cons_of_mem _ h)) h)
        · rintro rfl
          exact ha hc.symm
        · rintro rfl
          exact hb hc.symm
      · cases h

theorem plain_dropSign (s : Bytes) : Plain s (dropSign s) := by
  unfold dropSign
  split
  · split
    · next hc => rcases hc with rfl | rfl <;> exact .cons (by decide) (by decide)
    · exact .refl _
  · exact .refl _

theorem length_dropWhile_le (p : UInt8 → Bool) (s : Bytes) :
    (s.dropWhile p).length ≤ s.length := (List.dropWhile_sublist p).length_le

theorem plain_dropMantissa {digit : UInt8 → Bool} (hq : digit quote = false)
    (hb : digit backslash = false) (h : dropMantissa digit s = some r) :
    Plain s r ∧ r.length < s.length := by
  have hint := plain_dropWhile hq hb s
  have hle := length_dropWhile_le digit s
  unfold dropMantissa at h
  dsimp only at h
  generalize s.dropWhile digit = rest at h hint hle
  split at h
  · next hpoint =>
    obtain ⟨frac, rfl⟩ : ∃ frac, rest = 0x2e :: frac := by
      cases rest with
      | nil => cases hpoint
      | cons c frac => exact ⟨frac, by simpa using hpoint⟩
    have hfrac := plain_dropWhile hq hb frac
    have hle₁ := length_dropWhile_le digit frac
    rw [List.tail_cons] at h
    rw [List.length_cons] at hle
    split at h
    · cases h
    · cases h
      refine ⟨hint.trans ((Plain.cons (by decide) (by decide)).trans hfrac), ?_⟩
      omega
  · split at h
    · cases h
    · cases h
      exact ⟨hint, by omega⟩

theorem plain_dropExponent (mark : UInt8) (hq : tolower quote ≠ mark)
    (hb : tolower backslash ≠ mark) (s : Bytes) : Plain s (dropExponent mark s) := by
  unfold dropExponent
  split
  · dsimp only
    split
    · next hc =>
      refine (Plain.cons ?_ ?_).trans ((plain_dropSign _).trans (plain_dropWhile rfl rfl _))
      · rintro rfl
        exact hq hc.1
      · rintro rfl
        exact hb hc.1
    · exact .refl _
  · exact .refl _

theorem plain_dropNanChars (s : Bytes) : Plain s (dropNanChars s) := by
  unfold dropNanChars
  split
  · next c s =>
    dsimp only
    have hchars : Plain s (s.dropWhile fun c => isalnum c || c == 0x5f) :=
      plain_dropWhile (by decide) (by decide) s
    split
    · next hc =>
      obtain ⟨rest, hrest⟩ : ∃ rest, (s.dropWhile fun c => isalnum c || c == 0x5f) =
          0x29 :: rest := by
        generalize (s.dropWhile fun c => isalnum c || c == 0x5f) = rest at hc
        cases rest with
        | nil => simp at hc
        | cons d rest => exact ⟨rest, by simpa using hc.2⟩
      rw [hrest] at hchars ⊢
      rw [hc.1]
      exact (Plain.cons (by decide) (by decide)).trans
        (hchars.trans (Plain.cons (by decide) (by decide)))
    · exact .refl _
  · exact .refl _

theorem length_dropText (h : dropText w s = some r) : s.length = w.length + r.length := by
  induction w generalizing s with
  | nil =>
    cases h
    simp
  | cons a w ih =>
    cases s with
    | nil => cases h
    | cons c s =>
      rw [dropText] at h
      split at h
      · have := ih h
        simp only [List.length_cons]
        omega
      · cases h

theorem plain_strtod (h : strtod s = some r) : Plain s r ∧ r.length < s.length := by
  unfold strtod at h
  dsimp only at h
  have hstart : Plain s (dropSign (s.dropWhile isspace)) :=
    (plain_dropWhile (by decide) (by decide) s).trans (plain_dropSign _)
  generalize dropSign (s.dropWhile isspace) = u at h hstart
  have hnumber : Plain u r ∧ r.length < u.length := by
    rw [Option.or_eq_some_iff, Option.or_eq_some_iff, Option.or_eq_some_iff] at h
    rcases h with h | ⟨_, h | ⟨_, h | ⟨_, h⟩⟩⟩
    · simp only [dropHexadecimal, Option.bind_eq_bind, Option.bind_eq_some_iff, pure,
        Option.some.injEq] at h
      obtain ⟨s₁, h₁, s₂, h₂, rfl⟩ := h
      have hp₁ := plain_dropText (by decide +kernel) h₁
      obtain ⟨hp₂, hlt⟩ := plain_dropMantissa (by decide) (by decide) h₂
      have hp₃ := plain_dropExponent 0x70 (by decide) (by decide) s₂
      have := hp₁.length_le
      have := hp₃.length_le
      exact ⟨hp₁.trans (hp₂.trans hp₃), by omega⟩
    · simp only [dropDecimal, Option.bind_eq_bind, Option.bind_eq_some_iff, pure,
        Option.some.injEq] at h
      obtain ⟨s₁, h₁, rfl⟩ := h
      obtain ⟨hp₁, hlt⟩ := plain_dropMantissa (by decide) (by decide) h₁
      have hp₂ := plain_dropExponent 0x65 (by decide) (by decide) s₁
      have := hp₂.length_le
      exact ⟨hp₁.trans hp₂, by omega⟩
    · simp only [dropInfinity, Option.bind_eq_bind, Option.bind_eq_some_iff, pure,
        Option.some.injEq] at h
      obtain ⟨s₁, h₁, rfl⟩ := h
      have hp₁ := plain_dropText (by decide +kernel) h₁
      have hlt := length_dropText h₁
      simp only [List.length_cons, List.length_nil] at hlt
      cases h₂ : dropText [0x69, 0x6e, 0x69, 0x74, 0x79] s₁ with
      | none => exact ⟨hp₁, by rw [Option.getD_none]; omega⟩
      | some s₂ =>
        have hp₂ := plain_dropText (by decide +kernel) h₂
        have := hp₂.length_le
        exact ⟨hp₁.trans hp₂, by rw [Option.getD_some]; omega⟩
    · simp only [dropNan, Option.bind_eq_bind, Option.bind_eq_some_iff, pure,
        Option.some.injEq] at h
      obtain ⟨s₁, h₁, rfl⟩ := h
      have hp₁ := plain_dropText (by decide +kernel) h₁
      have hp₂ := plain_dropNanChars s₁
      have hlt := length_dropText h₁
      have := hp₂.length_le
      simp only [List.length_cons, List.length_nil] at hlt
      exact ⟨hp₁.trans hp₂, by omega⟩
  have := hstart.length_le
  exact ⟨hstart.trans hnumber.1, by omega⟩

end MangOH.Json
