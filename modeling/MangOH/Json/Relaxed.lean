import MangOH.Json.Scanner

/-! The language that the scanner accepts: JSON with more white space, any characters in strings,
the numbers of `strtod`, and commas that may be left out. -/
namespace MangOH.Json

open JsonGrammar

variable {s s₁ r w text : Bytes} {c : UInt8} {k : Bracket} {depth n : Nat}
  {items : List (Bytes × Tree)}

/-- What `SkipString` takes for the inside of a string: a quote has a backslash before it, and the
last byte is no backslash. -/
inductive Skippable : Bytes → Prop
  | nil : Skippable []
  | escaped {w : Bytes} (hw : Skippable w) : Skippable (backslash :: quote :: w)
  | other {c : UInt8} {w : Bytes} (hc : c ≠ quote)
      (hback : c = backslash → w ≠ [] ∧ w.head? ≠ some quote) (hw : Skippable w) :
      Skippable (c :: w)

/-- The bytes with which `SkipValue` takes a value for a number. -/
def startsNumber (c : UInt8) : Bool :=
  !isspace c && !(c ∈ [Bracket.object.opening, Bracket.array.opening, quote, 0x74, 0x66, 0x6e])

/-- The tokens of the scanner. -/
def relaxed : Lexis where
  space c := isspace c = true
  string := Skippable
  number s r := strtod s = some r ∧ endsValue r = true ∧ s.head?.any startsNumber = true
  ends r := endsValue r = true
  gap := True

/-! ### Tokens -/

/-- A text that does not start with white space. -/
def NoSpace (s : Bytes) : Prop := ∀ c w, s = c :: w → isspace c = false

theorem noSpace_cons (hc : isspace c = false) : NoSpace (c :: s) := by
  intro c' w h
  cases h
  exact hc

theorem spaces_skipWhitespace (s : Bytes) : Spaces relaxed s (skipWhitespace s) := by
  unfold skipWhitespace
  induction s with
  | nil => exact .nil _
  | cons c s ih =>
    rw [List.dropWhile_cons]
    split
    · next hc => exact .cons hc ih
    · exact .nil _

theorem noSpace_skipWhitespace (s : Bytes) : NoSpace (skipWhitespace s) := by
  intro c w h
  unfold skipWhitespace at h
  have hne : s.dropWhile isspace ≠ [] := by simp [h]
  have hhead := List.head_dropWhile_not isspace hne
  simpa only [h, List.head_cons] using hhead

theorem skipWhitespace_eq (h : Spaces relaxed s r) (hr : NoSpace r) : skipWhitespace s = r := by
  refine (spaces_skipWhitespace s).unique h ?_ ?_
  · intro c w heq hc
    exact absurd ((noSpace_skipWhitespace s c w heq).symm.trans hc) (by decide)
  · intro c w heq hc
    exact absurd ((hr c w heq).symm.trans hc) (by decide)

theorem skipChars_append (hw : Skippable w) : skipChars (w ++ quote :: r) = some r := by
  induction hw with
  | nil => cases r <;> simp [skipChars]
  | @escaped w _ ih =>
    show skipChars (backslash :: quote :: (w ++ quote :: r)) = some r
    rw [skipChars, if_neg (by decide), if_pos ⟨rfl, rfl⟩]
    exact ih
  | @other c w hc hback _ ih =>
    cases w with
    | nil =>
      have hne : c ≠ backslash := fun h => (hback h).1 rfl
      show skipChars (c :: quote :: r) = some r
      rw [skipChars, if_neg hc, if_neg (fun h => hne h.1)]
      exact ih
    | cons d w =>
      show skipChars (c :: d :: (w ++ quote :: r)) = some r
      rw [skipChars, if_neg hc, if_neg]
      · exact ih
      · rintro ⟨rfl, rfl⟩
        exact (hback rfl).2 rfl

theorem skipChars_sound (h : skipChars s = some r) :
    ∃ w, Skippable w ∧ s = w ++ quote :: r := by
  induction s using skipChars.induct with
  | case1 => cases h
  | case2 =>
    rw [skipChars, if_pos rfl] at h
    cases h
    exact ⟨[], .nil, rfl⟩
  | case3 c hc =>
    rw [skipChars, if_neg hc] at h
    cases h
  | case4 d s =>
    rw [skipChars, if_pos rfl] at h
    cases h
    exact ⟨[], .nil, rfl⟩
  | case5 c d s hc hesc ih =>
    rw [skipChars, if_neg hc, if_pos hesc] at h
    obtain ⟨w, hw, rfl⟩ := ih h
    obtain ⟨rfl, rfl⟩ := hesc
    exact ⟨backslash :: quote :: w, .escaped hw, rfl⟩
  | case6 c d s hc hesc ih =>
    rw [skipChars, if_neg hc, if_neg hesc] at h
    obtain ⟨w, hw, heq⟩ := ih h
    refine ⟨c :: w, .other hc ?_ hw, by rw [heq, List.cons_append]⟩
    rintro rfl
    have hd : d ≠ quote := fun hd => hesc ⟨rfl, hd⟩
    cases w with
    | nil =>
      rw [List.nil_append] at heq
      exact absurd (List.cons.inj heq).1 hd
    | cons d' w =>
      rw [List.cons_append] at heq
      cases (List.cons.inj heq).1
      exact ⟨by simp, by simpa using hd⟩

theorem skipString_eq (hw : Skippable w) : skipString (quote :: (w ++ quote :: r)) = some r := by
  rw [skipString, if_pos rfl]
  exact skipChars_append hw

theorem skipString_sound (h : skipString s = some r) :
    ∃ w, Skippable w ∧ s = quote :: (w ++ quote :: r) := by
  cases s with
  | nil => cases h
  | cons c s =>
    simp only [skipString, Option.ite_none_right_eq_some] at h
    obtain ⟨rfl, h⟩ := h
    obtain ⟨w, hw, rfl⟩ := skipChars_sound h
    exact ⟨w, hw, rfl⟩

theorem skipLiteral_iff : skipLiteral text s = some r ↔ s = text ++ r ∧ endsValue r = true := by
  unfold skipLiteral
  rw [Option.ite_none_right_eq_some, Option.some.injEq]
  constructor
  · rintro ⟨⟨hpre, hends⟩, rfl⟩
    obtain ⟨rest, rfl⟩ := List.isPrefixOf_iff_prefix.mp hpre
    simpa using hends
  · rintro ⟨rfl, hends⟩
    simpa using hends

theorem skipNumber_iff : skipNumber s = some r ↔ strtod s = some r ∧ endsValue r = true := by
  unfold skipNumber
  cases strtod s with
  | none => simp
  | some r' =>
    simp only [Option.ite_none_right_eq_some, Option.some.injEq]
    constructor
    · rintro ⟨h, rfl⟩
      exact ⟨rfl, h⟩
    · rintro ⟨rfl, h⟩
      exact ⟨h, rfl⟩

theorem derives_skipLiteral {kind : Scalar} (hw : Literal kind w)
    (h : skipLiteral w s = some r) : Derives relaxed .value s r [([], .scalar kind w)] := by
  obtain ⟨hs, hends⟩ := skipLiteral_iff.mp h
  exact .literal hw hends hs

/-! ### What is accepted is in the language -/

theorem skipItems_sound {skipItem : Bytes → Option Bytes}
    (hitem : ∀ s r, NoSpace s → skipItem s = some r → ∃ items, Derives relaxed (.item k) s r items)
    (hs : NoSpace s) (h : skipItems k.closing skipItem n s = some r) :
    ∃ items, Derives relaxed (.items k) s r items := by
  induction n generalizing s with
  | zero => cases h
  | succ n ih =>
    rw [skipItems] at h
    split at h
    · cases h
    · simp only [Option.bind_eq_bind, Option.bind_eq_some_iff] at h
      obtain ⟨s₁, hskip, h⟩ := h
      obtain ⟨items, hi⟩ := hitem s s₁ hs hskip
      have hspaces := spaces_skipWhitespace s₁
      have hno := noSpace_skipWhitespace s₁
      generalize skipWhitespace s₁ = s₂ at h hspaces hno
      cases s₂ with
      | nil => cases h
      | cons c s₂ =>
        dsimp only at h
        split at h
        · next hc =>
          cases h
          exact ⟨items, .last k hi (hc ▸ hspaces)⟩
        · split at h
          · next hc =>
            obtain ⟨rest, hr⟩ := ih (noSpace_skipWhitespace s₂) h
            exact ⟨_, .more k hi (.comma (hc ▸ hspaces) (spaces_skipWhitespace s₂)) hr⟩
          · obtain ⟨rest, hr⟩ := ih hno h
            exact ⟨_, .more k hi (.gap trivial hspaces) hr⟩

theorem skipBracket_sound {skipItem : Bytes → Option Bytes}
    (hitem : ∀ s r, NoSpace s → skipItem s = some r → ∃ items, Derives relaxed (.item k) s r items)
    (h : skipBracket k skipItem s = some r) : ∃ t, Derives relaxed .value s r [([], t)] := by
  cases s with
  | nil => cases h
  | cons c s =>
    simp only [skipBracket, Option.ite_none_right_eq_some] at h
    obtain ⟨rfl, h⟩ := h
    have hspaces := spaces_skipWhitespace s
    have hno := noSpace_skipWhitespace s
    generalize skipWhitespace s = s₁ at h hspaces hno
    cases s₁ with
    | nil => cases h
    | cons c s₁ =>
      dsimp only at h
      split at h
      · next hc =>
        cases h
        exact exists_empty (hc ▸ hspaces)
      · obtain ⟨items, hi⟩ := skipItems_sound hitem hno h
        exact exists_bracket hspaces hi

theorem skipMember_sound {skipValue : Bytes → Option Bytes}
    (hvalue : ∀ s r, NoSpace s → skipValue s = some r → ∃ t, Derives relaxed .value s r [([], t)])
    (h : skipMember skipValue s = some r) :
    ∃ items, Derives relaxed (.item .object) s r items := by
  simp only [skipMember, Option.bind_eq_bind, Option.bind_eq_some_iff] at h
  obtain ⟨s₁, hstring, h⟩ := h
  obtain ⟨w, hw, hs⟩ := skipString_sound hstring
  have hspaces := spaces_skipWhitespace s₁
  generalize skipWhitespace s₁ = s₂ at h hspaces
  cases s₂ with
  | nil => cases h
  | cons c s₂ =>
    simp only [Option.ite_none_right_eq_some] at h
    obtain ⟨rfl, h⟩ := h
    obtain ⟨t, hv⟩ := hvalue _ _ (noSpace_skipWhitespace s₂) h
    exact ⟨_, .member hw hs hspaces (spaces_skipWhitespace s₂) hv⟩

theorem skipNumber_sound (hstart : s.head?.any startsNumber = true) (h : skipNumber s = some r) :
    ∃ t, Derives relaxed .value s r [([], t)] := by
  obtain ⟨hnum, hends⟩ := skipNumber_iff.mp h
  obtain ⟨⟨w, hs, _⟩, _⟩ := plain_strtod hnum
  exact ⟨_, .number ⟨hnum, hends, hstart⟩ hs⟩

theorem skipValue_sound (hs : NoSpace s) (h : skipValue depth s = some r) :
    ∃ t, Derives relaxed .value s r [([], t)] := by
  induction depth generalizing s r with
  | zero =>
    cases s with
    | nil => cases h
    | cons c s => cases h
  | succ depth ih =>
    have hvalue : ∀ s r, NoSpace s → skipValue depth s = some r →
        ∃ t, Derives relaxed .value s r [([], t)] := fun _ _ hs h => ih hs h
    cases s with
    | nil => cases h
    | cons c s =>
      rw [skipValue] at h
      split at h
      · exact skipBracket_sound (fun _ _ _ h => skipMember_sound hvalue h) h
      · next hobject =>
        split at h
        · refine skipBracket_sound (fun s r hs h => ?_) h
          obtain ⟨t, ht⟩ := hvalue s r hs h
          exact ⟨_, .element ht⟩
        · next harray =>
          split at h
          · obtain ⟨w, hw, hs⟩ := skipString_sound h
            exact ⟨_, .string hw hs⟩
          · next hquote =>
            split at h
            · exact ⟨_, derives_skipLiteral .true h⟩
            · next ht =>
              split at h
              · exact ⟨_, derives_skipLiteral .false h⟩
              · next hf =>
                split at h
                · exact ⟨_, derives_skipLiteral .null h⟩
                · next hn =>
                  refine skipNumber_sound ?_ h
                  simp [startsNumber, hs c s rfl, *]

/-! ### What is in the language is accepted -/

/-- `SkipValue` or `SkipMember`, depending on what is enclosed. -/
def skipItem : Bracket → (Bytes → Option Bytes) → Bytes → Option Bytes
  | .array, skipValue => skipValue
  | .object, skipValue => skipMember skipValue

/-- A byte with which an element or member can start. -/
structure Starts (c : UInt8) : Prop where
  noSpace : isspace c = false
  noComma : c ≠ comma
  noClosing : ∀ k : Bracket, c ≠ k.closing

theorem starts_of_decide (h : isspace c = false ∧ c ≠ comma ∧ c ≠ Bracket.array.closing ∧
    c ≠ Bracket.object.closing) : Starts c :=
  ⟨h.1, h.2.1, fun k => by cases k <;> [exact h.2.2.1; exact h.2.2.2]⟩

theorem strtod_eq_none (hc : c = comma ∨ ∃ k : Bracket, c = k.closing) :
    strtod (c :: s) = none := by
  have hall : c = comma ∨ c = Bracket.array.closing ∨ c = Bracket.object.closing := by
    rcases hc with h | ⟨k, h⟩
    · exact .inl h
    · cases k <;> simp [h]
  rcases hall with rfl | rfl | rfl <;>
    simp [strtod, dropHexadecimal, dropDecimal, dropInfinity, dropNan, dropText, dropSign,
      dropMantissa, isspace, tolower, isDigit, comma, Bracket.closing]

theorem starts_of_derives {sym : Symbol} (h : Derives relaxed sym s r items) :
    ∃ c w, s = c :: w ∧ Starts c := by
  induction h with
  | literal hw _ hs =>
    subst hs
    cases hw <;> exact ⟨_, _, rfl, starts_of_decide (by decide)⟩
  | @number w s r hn _ =>
    obtain ⟨hnum, _, hstart⟩ := hn
    cases s with
    | nil => cases hstart
    | cons c s =>
      simp only [List.head?_cons, Option.any_some, startsNumber, Bool.and_eq_true,
        Bool.not_eq_true'] at hstart
      refine ⟨c, s, rfl, hstart.1, fun hc => ?_, fun k hc => ?_⟩
      · rw [strtod_eq_none (.inl hc)] at hnum
        cases hnum
      · rw [strtod_eq_none (.inr ⟨k, hc⟩)] at hnum
        cases hnum
  | string _ hs =>
    subst hs
    exact ⟨_, _, rfl, starts_of_decide (by decide)⟩
  | empty k =>
    refine ⟨_, _, rfl, ?_⟩
    cases k <;> exact starts_of_decide (by decide)
  | bracket k =>
    refine ⟨_, _, rfl, ?_⟩
    cases k <;> exact starts_of_decide (by decide)
  | element _ ih => exact ih
  | member _ hs =>
    subst hs
    exact ⟨_, _, rfl, starts_of_decide (by decide)⟩
  | last _ _ _ ih => exact ih
  | more _ _ _ _ ih => exact ih

theorem noSpace_of_derives {sym : Symbol} (h : Derives relaxed sym s r items) : NoSpace s := by
  obtain ⟨c, w, rfl, hc⟩ := starts_of_derives h
  exact noSpace_cons hc.noSpace

theorem closing_noSpace (k : Bracket) : isspace k.closing = false := by
  cases k <;> decide

/-- How the scanner treats a phrase of the language. -/
def Scans : Symbol → Bytes → Bytes → Prop
  | .value, s, r => ∀ depth, s.length ≤ depth → skipValue depth s = some r
  | .item k, s, r => ∀ depth, s.length ≤ depth → skipItem k (skipValue depth) s = some r
  | .items k, s, r => ∀ depth n, s.length ≤ depth → s.length ≤ n →
      skipItems k.closing (skipItem k (skipValue depth)) n s = some r

theorem skipValue_bracket (k : Bracket) (s : Bytes) :
    skipValue (depth + 1) (k.opening :: s) =
      skipBracket k (skipItem k (skipValue depth)) (k.opening :: s) := by
  cases k <;> rfl

theorem skipValue_literal {kind : Scalar} (hw : Literal kind w) (hends : endsValue r = true) :
    skipValue (depth + 1) (w ++ r) = some r := by
  cases hw
  · exact skipLiteral_iff.mpr ⟨rfl, hends⟩
  · exact skipLiteral_iff.mpr ⟨rfl, hends⟩
  · exact skipLiteral_iff.mpr ⟨rfl, hends⟩

theorem skipValue_number (hstart : startsNumber c = true) :
    skipValue (depth + 1) (c :: s) = skipNumber (c :: s) := by
  simp only [startsNumber, Bool.and_eq_true, Bool.not_eq_true', decide_eq_false_iff_not,
    List.mem_cons, List.not_mem_nil, or_false, not_or] at hstart
  obtain ⟨_, hobject, harray, hquote, ht, hf, hn⟩ := hstart
  rw [skipValue, if_neg hobject, if_neg harray, if_neg hquote, if_neg ht, if_neg hf, if_neg hn]

theorem scans_bracket (h : Spaces relaxed s s₁) (hi : Derives relaxed (.items k) s₁ r items)
    (ih : Scans (.items k) s₁ r) : Scans .value (k.opening :: s) r := by
  intro depth hdepth
  obtain ⟨c, w, rfl, hc⟩ := starts_of_derives hi
  obtain ⟨depth, rfl⟩ := Nat.exists_eq_add_one_of_ne_zero (n := depth) (by simp at hdepth; omega)
  have hle := h.length_le
  simp only [List.length_cons] at hdepth hle
  rw [skipValue_bracket, skipBracket, if_pos rfl, skipWhitespace_eq h (noSpace_cons hc.noSpace)]
  simp only [if_neg (hc.noClosing k)]
  refine ih depth _ ?_ ?_ <;> simp only [List.length_cons] <;> omega

theorem scans_of_derives {sym : Symbol} (h : Derives relaxed sym s r items) : Scans sym s r := by
  induction h with
  | literal hw hends hs =>
    rintro (_ | depth) hdepth
    · subst hs
      cases hw <;> simp at hdepth
    · subst hs
      exact skipValue_literal hw hends
  | @number w s r hn _ =>
    obtain ⟨hnum, hends, hstart⟩ := hn
    cases s with
    | nil => cases hstart
    | cons c s =>
      rintro (_ | depth) hdepth
      · simp at hdepth
      · rw [skipValue_number (by simpa using hstart)]
        exact skipNumber_iff.mpr ⟨hnum, hends⟩
  | string hw hs =>
    rintro (_ | depth) hdepth
    · subst hs
      simp at hdepth
    · subst hs
      exact skipString_eq hw
  | @empty w s r k h hs =>
    rintro (_ | depth) hdepth
    · simp at hdepth
    · rw [skipValue_bracket, skipBracket, if_pos rfl,
        skipWhitespace_eq h (noSpace_cons (closing_noSpace k))]
      simp only [if_pos]
  | bracket k h hi _ ih => exact scans_bracket h hi ih
  | element _ ih => exact ih
  | @member w s s₁ s₂ s₃ r t hw hs h₁ h₂ hv ih =>
    intro depth hdepth
    have hle₁ := h₁.length_le
    have hle₂ := h₂.length_le
    subst hs
    simp only [List.length_cons, List.length_append] at hdepth hle₁ hle₂
    show skipMember (skipValue depth) _ = _
    rw [skipMember, skipString_eq hw]
    simp only [Option.bind_eq_bind, Option.bind_some]
    rw [skipWhitespace_eq h₁ (noSpace_cons (by decide))]
    simp only [if_pos, skipWhitespace_eq h₂ (noSpace_of_derives hv)]
    exact ih depth (by omega)
  | @last s s₁ r items k hi h ih =>
    rintro depth (_ | n) hdepth hn
    · obtain ⟨c, w, rfl, _⟩ := starts_of_derives hi
      simp at hn
    · obtain ⟨c, w, rfl, _⟩ := starts_of_derives hi
      rw [skipItems, if_neg (by simp), ih depth hdepth]
      simp only [Option.bind_eq_bind, Option.bind_some]
      rw [skipWhitespace_eq h (noSpace_cons (closing_noSpace k))]
      simp only [if_pos]
  | @more s s₁ s₂ r items rest k hi h hr ih ihr =>
    have hlt := hi.length_lt fun _ _ hn => (plain_strtod (And.left hn)).2
    have hle := h.length_le
    obtain ⟨d, w₂, hs₂, hd⟩ := starts_of_derives hr
    rintro depth (_ | n) hdepth hn
    · obtain ⟨c, w, rfl, _⟩ := starts_of_derives hi
      simp at hn
    · obtain ⟨c, w, rfl, _⟩ := starts_of_derives hi
      rw [skipItems, if_neg (by simp), ih depth hdepth]
      simp only [Option.bind_eq_bind, Option.bind_some]
      have hrest := ihr depth n (by omega) (by omega)
      cases h with
      | comma h h₁ =>
        rw [skipWhitespace_eq h (noSpace_cons (by decide))]
        have hclosing : comma ≠ k.closing := by cases k <;> decide
        simp only [if_neg hclosing, if_pos]
        rw [skipWhitespace_eq h₁ (noSpace_of_derives hr)]
        exact hrest
      | gap _ h =>
        rw [skipWhitespace_eq h (noSpace_of_derives hr)]
        subst hs₂
        simp only [if_neg (hd.noClosing k), if_neg hd.noComma]
        exact hrest

/-- `json_IsValid` accepts just the relaxed language. -/
theorem jsonIsValid_iff : jsonIsValid s = true ↔ IsText relaxed s := by
  unfold jsonIsValid skip
  constructor
  · intro h
    split at h
    · next r hskip =>
      obtain ⟨t, hv⟩ := skipValue_sound (noSpace_skipWhitespace s) hskip
      have hend := spaces_skipWhitespace r
      rw [List.isEmpty_iff.mp h] at hend
      exact ⟨t, _, r, spaces_skipWhitespace s, hv, hend⟩
    · cases h
  · rintro ⟨t, s₁, r, hs, hv, hr⟩
    rw [skipWhitespace_eq hs (noSpace_of_derives hv), scans_of_derives hv s₁.length (Nat.le_refl _)]
    dsimp only
    rw [skipWhitespace_eq hr (by intro c w h; cases h)]
    rfl

end MangOH.Json
