import MangOH.Json.Pointers

/-! The scanners go forward and stay in front of the terminator. -/
namespace MangOH.Json

open JsonGrammar

variable {m spec : Memory} {s s₁ r w name text : Bytes} {c : UInt8} {k : Bracket}
  {p q fuel rounds bound n i longBits : Nat}

/-! ### What stands at a pointer -/

/-- The text from a pointer on. -/
structure Memory.At (m : Memory) (p : Nat) (s : Bytes) : Prop where
  le : p ≤ m.text.length
  drop : m.text.drop p = s

theorem at_drop (h : p ≤ m.text.length) : m.At p (m.text.drop p) := ⟨h, rfl⟩

namespace Memory.At

theorem length (h : m.At p s) : p + s.length = m.text.length := by
  have hle := h.le
  rw [← h.drop, List.length_drop]
  omega

theorem append (h : m.At p (w ++ r)) : m.At (p + w.length) r := by
  have hlen := h.length
  rw [List.length_append] at hlen
  refine ⟨by omega, ?_⟩
  rw [← List.drop_drop, h.drop, List.drop_left]

theorem cons (h : m.At p (c :: s)) : m.At (p + 1) s := append (w := [c]) h

theorem ne_zero (h : m.At p (c :: s)) : c ≠ 0 := by
  rintro rfl
  exact m.noNul (List.mem_of_mem_drop (h.drop ▸ List.mem_cons_self))

theorem read_cons (h : m.At p (c :: s)) : m.read p = .ok c := by
  have hget : m.text[p]? = some c := by rw [← List.head?_drop, h.drop, List.head?_cons]
  rw [Memory.read, hget]

theorem read_nil (h : m.At p []) : m.read p = .ok 0 := by
  have hget : m.text[p]? = none := by rw [← List.head?_drop, h.drop, List.head?_nil]
  rw [Memory.read, hget]
  exact if_pos h.length

/-- The pointer to what is left of the text. -/
theorem rest (h : m.At p (w ++ r)) : m.text.length - r.length = p + w.length := by
  have hlen := h.append.length
  omega

end Memory.At

theorem skipWhitespace_at (h : m.At p s) (hfuel : s.length < fuel) :
    ∃ q, m.skipWhitespace fuel p = .ok q ∧ m.At q (skipWhitespace s) := by
  induction s generalizing p fuel with
  | nil =>
    obtain ⟨fuel, rfl⟩ := Nat.exists_eq_succ_of_ne_zero (Nat.ne_of_gt hfuel)
    refine ⟨p, ?_, h⟩
    simp only [Memory.skipWhitespace, h.read_nil, bind, Except.bind]
    rfl
  | cons c s ih =>
    obtain ⟨fuel, rfl⟩ := Nat.exists_eq_succ_of_ne_zero (Nat.ne_of_gt (Nat.zero_lt_of_lt hfuel))
    simp only [Memory.skipWhitespace, h.read_cons, bind, Except.bind]
    cases hc : isspace c with
    | true =>
      obtain ⟨q, hq, hat⟩ := ih h.cons (Nat.lt_of_succ_lt_succ hfuel)
      refine ⟨q, ?_, ?_⟩
      · rw [if_pos rfl, hq]
      · rwa [skipWhitespace, List.dropWhile_cons_of_pos hc]
    | false =>
      refine ⟨p, rfl, ?_⟩
      rwa [skipWhitespace, List.dropWhile_cons_of_neg (by rw [hc]; decide)]

/-- A scanner on pointers does what the one on texts does, and goes forward. -/
def Skips (m : Memory) (s : Bytes) (result : Pointer) : Option Bytes → Prop
  | some r => r.length < s.length ∧ ∃ q, result = .ok (some q) ∧ m.At q r
  | none => result = .ok none

theorem Skips.mono {result : Pointer} {y : Option Bytes} (h : Skips m s₁ result y)
    (hle : s₁.length ≤ s.length) : Skips m s result y := by
  cases y with
  | none => exact h
  | some r => exact ⟨Nat.lt_of_lt_of_le h.1 hle, h.2⟩

theorem skips_pointer (h : m.At q r) (hlt : r.length < s.length) :
    Skips m s (.ok (some q)) (some r) := ⟨hlt, q, rfl, h⟩

/-! ### The scanners -/

theorem skipChars_cons : skipChars (c :: s) =
    if c = quote then some s
    else if c = backslash ∧ s.head? = some quote then skipChars s.tail
    else skipChars s := by
  cases s with
  | nil => simp [skipChars]
  | cons d s => simp [skipChars]

theorem skipChars_skips (h : m.At p s) (hfuel : s.length < fuel) :
    Skips m s (m.skipChars fuel p) (skipChars s) := by
  induction fuel generalizing p s with
  | zero => omega
  | succ fuel ih =>
    cases s with
    | nil =>
      simp only [Memory.skipChars, h.read_nil, bind, Except.bind]
      rfl
    | cons c s =>
      simp only [Memory.skipChars, h.read_cons, bind, Except.bind, skipChars_cons]
      rw [List.length_cons] at hfuel
      by_cases hquote : c = quote
      · rw [if_pos hquote, if_pos hquote]
        exact skips_pointer h.cons (Nat.lt_succ_self _)
      · rw [if_neg hquote, if_neg hquote, if_neg h.ne_zero]
        have hnext := (ih h.cons (by omega)).mono (s := c :: s) (Nat.le_succ _)
        by_cases hslash : c = backslash
        · rw [if_pos hslash]
          cases s with
          | nil =>
            rw [h.cons.read_nil, if_neg (by simp)]
            exact hnext
          | cons d s =>
            rw [h.cons.read_cons]
            by_cases hescaped : d = quote
            · rw [if_pos ⟨hslash, by rw [List.head?_cons, hescaped]⟩]
              simp only [if_pos hescaped]
              rw [List.length_cons] at hfuel
              exact (ih h.cons.cons (by omega)).mono (by simp only [List.length_cons]; omega)
            · rw [if_neg (by simp [hescaped])]
              simp only [if_neg hescaped]
              exact hnext
        · rw [if_neg hslash, if_neg fun hboth => hslash hboth.1]
          exact hnext

theorem skipString_skips (h : m.At p s) (hfuel : s.length ≤ fuel) :
    Skips m s (m.skipString fuel p) (skipString s) := by
  cases s with
  | nil =>
    simp only [Memory.skipString, h.read_nil, bind, Except.bind]
    rfl
  | cons c s =>
    simp only [Memory.skipString, h.read_cons, bind, Except.bind, skipString]
    rw [List.length_cons] at hfuel
    by_cases hquote : c = quote
    · rw [if_pos hquote, if_pos hquote]
      exact (skipChars_skips h.cons (by omega)).mono (Nat.le_succ _)
    · rw [if_neg hquote, if_neg hquote]
      rfl

theorem matchesText_at (htext : 0 ∉ text) (h : m.At p s) :
    m.matchesText text p = .ok (text.isPrefixOf s) := by
  induction text generalizing p s with
  | nil => rfl
  | cons c text ih =>
    rw [List.mem_cons, not_or] at htext
    cases s with
    | nil =>
      simp only [Memory.matchesText, h.read_nil, bind, Except.bind]
      rw [if_neg htext.1]
      rfl
    | cons d s =>
      simp only [Memory.matchesText, h.read_cons, bind, Except.bind, List.isPrefixOf]
      by_cases hd : d = c
      · rw [if_pos hd, if_neg (fun hc => htext.1 hc.symm), ih htext.2 h.cons]
        simp [hd]
      · rw [if_neg hd, beq_false_of_ne (Ne.symm hd)]
        rfl

theorem endsValue_at (h : m.At p s) : m.endsValue p = .ok (endsValue s) := by
  cases s with
  | nil =>
    simp only [Memory.endsValue, h.read_nil, bind, Except.bind]
    rfl
  | cons c s =>
    have hzero : (c == 0) = false := by simpa using h.ne_zero
    simp only [Memory.endsValue, h.read_cons, bind, Except.bind, endsValue, hzero, Bool.or_false]
    rfl

theorem skipLiteral_skips (htext : 0 ∉ text) (hne : text ≠ []) (h : m.At p s) :
    Skips m s (m.skipLiteral text p) (skipLiteral text s) := by
  simp only [Memory.skipLiteral, matchesText_at htext h, bind, Except.bind, skipLiteral]
  cases hmatches : text.isPrefixOf s with
  | false =>
    simp only [Bool.false_eq_true, false_and, if_false]
    rfl
  | true =>
    obtain ⟨r, rfl⟩ := List.isPrefixOf_iff_prefix.mp hmatches
    rw [if_pos rfl, endsValue_at h.append, List.drop_left]
    have hpos : 0 < text.length := List.length_pos_iff.mpr hne
    cases hends : endsValue r with
    | false => simp [Skips, pure, Except.pure]
    | true =>
      simp only [and_self, if_true]
      refine skips_pointer h.append ?_
      rw [List.length_append]
      omega

theorem strtod_none (h : m.At p s) (hend : strtod s = none) : m.strtod p = .ok p := by
  obtain ⟨c, hread⟩ : ∃ c, m.read p = .ok c := by
    cases s with
    | nil => exact ⟨0, h.read_nil⟩
    | cons c s => exact ⟨c, h.read_cons⟩
  simp only [Memory.strtod, hread, bind, Except.bind, h.drop, hend]
  rfl

theorem strtod_some (h : m.At p (w ++ r)) (hne : w ≠ []) (hend : strtod (w ++ r) = some r) :
    m.strtod p = .ok (p + w.length) := by
  obtain ⟨c, u, rfl⟩ := List.exists_cons_of_ne_nil hne
  have hread : m.read p = .ok c := h.read_cons
  simp only [Memory.strtod, hread, bind, Except.bind, h.drop, hend, h.rest]
  rfl

theorem skipNumber_skips (h : m.At p s) : Skips m s (m.skipNumber p) (skipNumber s) := by
  unfold skipNumber
  cases hend : strtod s with
  | none =>
    simp only [Memory.skipNumber, strtod_none h hend, bind, Except.bind, if_true]
    rfl
  | some r =>
    obtain ⟨⟨w, rfl, -⟩, hlt⟩ := plain_strtod hend
    have hpos : 0 < w.length := by
      rw [List.length_append] at hlt
      omega
    simp only [Memory.skipNumber, strtod_some h (List.length_pos_iff.mp hpos) hend, bind,
      Except.bind, endsValue_at h.append]
    rw [if_neg (by omega)]
    cases hends : endsValue r with
    | false => rfl
    | true => exact skips_pointer h.append hlt

/-- The scanner does so for every text that is short enough. -/
def SkipsBelow (m : Memory) (bound : Nat) (skipValue : Nat → Pointer)
    (skipText : Bytes → Option Bytes) : Prop :=
  ∀ {p s}, m.At p s → s.length < bound → Skips m s (skipValue p) (skipText s)

section Brackets

variable {skipValue : Nat → Pointer} {skipText : Bytes → Option Bytes}

theorem skipMember_skips (hvalue : SkipsBelow m bound skipValue skipText) (h : m.At p s)
    (hfuel : s.length ≤ fuel) (hbound : s.length ≤ bound) :
    Skips m s (m.skipMember skipValue fuel p) (skipMember skipText s) := by
  have hstring := skipString_skips h hfuel
  unfold skipMember Memory.skipMember
  cases hs : skipString s with
  | none =>
    rw [hs] at hstring
    rw [show m.skipString fuel p = _ from hstring]
    rfl
  | some s₁ =>
    rw [hs] at hstring
    obtain ⟨hlt, q, hq, hat⟩ := hstring
    obtain ⟨q₁, hq₁, hat₁⟩ := skipWhitespace_at hat (show _ < fuel by omega)
    have hle : (skipWhitespace s₁).length ≤ s₁.length := length_dropWhile_le _ _
    simp only [hq, hq₁, bind, Except.bind, Option.bind]
    cases hspace : skipWhitespace s₁ with
    | nil =>
      rw [hspace] at hat₁
      rw [hat₁.read_nil]
      rfl
    | cons c s₂ =>
      rw [hspace] at hat₁ hle
      rw [List.length_cons] at hle
      rw [hat₁.read_cons]
      dsimp only
      by_cases hcolon : c = colon
      · obtain ⟨q₂, hq₂, hat₂⟩ := skipWhitespace_at hat₁.cons (show _ < fuel by omega)
        have hle₂ : (skipWhitespace s₂).length ≤ s₂.length := length_dropWhile_le _ _
        rw [if_pos hcolon, if_pos hcolon, hq₂]
        exact (hvalue hat₂ (by omega)).mono (by omega)
      · rw [if_neg hcolon, if_neg hcolon]
        rfl

theorem skipItems_terminator {closing : UInt8} (h : m.At p []) (hrounds : 0 < rounds) :
    m.skipItems closing skipValue fuel rounds p = .ok none := by
  obtain ⟨rounds, rfl⟩ := Nat.exists_eq_succ_of_ne_zero hrounds.ne'
  simp only [Memory.skipItems, h.read_nil, bind, Except.bind]
  rfl

theorem skipItems_skips {closing : UInt8} (hclosing : closing ≠ 0)
    (hitem : SkipsBelow m bound skipValue skipText) (h : m.At p s) (hfuel : s.length < fuel)
    (hbound : s.length < bound) (hrounds : s.length < rounds) (hn : s.length ≤ n) :
    Skips m s (m.skipItems closing skipValue fuel rounds p) (skipItems closing skipText n s) := by
  induction rounds generalizing p s n with
  | zero => omega
  | succ rounds ih =>
    cases s with
    | nil =>
      rw [skipItems_terminator h (Nat.succ_pos _)]
      cases n <;> rfl
    | cons c s =>
      have hcons : (c :: s).length = s.length + 1 := List.length_cons
      obtain ⟨n, rfl⟩ := Nat.exists_eq_succ_of_ne_zero (show n ≠ 0 by omega)
      have hfirst := hitem h hbound
      simp only [Memory.skipItems, h.read_cons, bind, Except.bind, skipItems, if_neg h.ne_zero,
        if_neg (List.cons_ne_nil c s)]
      cases hs : skipText (c :: s) with
      | none =>
        rw [hs] at hfirst
        rw [show skipValue p = _ from hfirst]
        rfl
      | some s₁ =>
        rw [hs] at hfirst
        obtain ⟨hlt, q, hq, hat⟩ := hfirst
        obtain ⟨q₁, hq₁, hat₁⟩ := skipWhitespace_at hat (show _ < fuel by omega)
        have hle : (skipWhitespace s₁).length ≤ s₁.length := length_dropWhile_le _ _
        simp only [hq, hq₁, Option.bind]
        cases hspace : skipWhitespace s₁ with
        | nil =>
          rw [hspace] at hat₁
          rw [hat₁.read_nil]
          dsimp only
          rw [if_neg (Ne.symm hclosing), if_neg (by decide),
            skipItems_terminator hat₁ (by omega)]
          rfl
        | cons d s₂ =>
          have hcons₂ : (d :: s₂).length = s₂.length + 1 := List.length_cons
          rw [hspace] at hat₁ hle
          rw [hat₁.read_cons]
          dsimp only
          by_cases hclosed : d = closing
          · rw [if_pos hclosed, if_pos hclosed]
            exact skips_pointer hat₁.cons (by omega)
          · rw [if_neg hclosed, if_neg hclosed]
            by_cases hcomma : d = comma
            · obtain ⟨q₂, hq₂, hat₂⟩ := skipWhitespace_at hat₁.cons (show _ < fuel by omega)
              have hle₂ : (skipWhitespace s₂).length ≤ s₂.length := length_dropWhile_le _ _
              rw [if_pos hcomma, if_pos hcomma, hq₂]
              exact (ih hat₂ (by omega) (by omega) (by omega) (by omega)).mono (by omega)
            · rw [if_neg hcomma, if_neg hcomma]
              exact (ih hat₁ (by omega) (by omega) (by omega) (by omega)).mono (by omega)

theorem skipBracket_skips (k : Bracket) (hitem : SkipsBelow m bound skipValue skipText)
    (h : m.At p s) (hfuel : s.length ≤ fuel) (hbound : s.length ≤ bound) :
    Skips m s (m.skipBracket k skipValue fuel p) (skipBracket k skipText s) := by
  have hzero : ∀ k : Bracket, k.opening ≠ 0 ∧ k.closing ≠ 0 := by
    intro k
    cases k <;> decide
  cases s with
  | nil =>
    simp only [Memory.skipBracket, h.read_nil, bind, Except.bind]
    rw [if_neg (Ne.symm (hzero k).1)]
    rfl
  | cons c s =>
    have hcons : (c :: s).length = s.length + 1 := List.length_cons
    simp only [Memory.skipBracket, h.read_cons, bind, Except.bind, skipBracket]
    by_cases hopening : c = k.opening
    · obtain ⟨q, hq, hat⟩ := skipWhitespace_at h.cons (show _ < fuel by omega)
      have hle : (skipWhitespace s).length ≤ s.length := length_dropWhile_le _ _
      rw [if_pos hopening, if_pos hopening, hq]
      dsimp only
      cases hspace : skipWhitespace s with
      | nil =>
        rw [hspace] at hat
        rw [hat.read_nil]
        dsimp only
        rw [if_neg (Ne.symm (hzero k).2), skipItems_terminator hat (by omega)]
        rfl
      | cons d s₁ =>
        have hcons₁ : (d :: s₁).length = s₁.length + 1 := List.length_cons
        rw [hspace] at hat hle
        rw [hat.read_cons]
        dsimp only
        by_cases hclosed : d = k.closing
        · rw [if_pos hclosed, if_pos hclosed]
          exact skips_pointer hat.cons (by omega)
        · rw [if_neg hclosed, if_neg hclosed]
          exact (skipItems_skips (hzero k).2 hitem hat (by omega) (by omega) (by omega)
            (by omega)).mono (by omega)
    · rw [if_neg hopening, if_neg hopening]
      rfl

end Brackets

/-- Calls go as deep as the rest of the text is long at most. -/
theorem skipValue_skips (h : m.At p s) (hfuel : s.length < fuel) (hn : s.length ≤ n) :
    Skips m s (m.skipValue fuel p) (skipValue n s) := by
  induction fuel generalizing p s n with
  | zero => omega
  | succ fuel ih =>
    cases s with
    | nil =>
      simp only [Memory.skipValue, h.read_nil, bind, Except.bind]
      cases n <;> exact skipNumber_skips h
    | cons c s =>
      have hcons : (c :: s).length = s.length + 1 := List.length_cons
      obtain ⟨n, rfl⟩ := Nat.exists_eq_succ_of_ne_zero (show n ≠ 0 by omega)
      have hvalue : SkipsBelow m (c :: s).length (m.skipValue fuel) (skipValue n) :=
        fun hat hlt => ih hat (by omega) (by omega)
      have hmember : SkipsBelow m (c :: s).length (m.skipMember (m.skipValue fuel) fuel)
          (skipMember (skipValue n)) :=
        fun hat hlt => skipMember_skips hvalue hat (by omega) hlt.le
      simp only [Memory.skipValue, h.read_cons, bind, Except.bind, skipValue]
      split
      · exact skipBracket_skips .object hmember h (by omega) le_rfl
      · split
        · exact skipBracket_skips .array hvalue h (by omega) le_rfl
        · split
          · exact skipString_skips h (by omega)
          · split
            · exact skipLiteral_skips (by decide) (by decide) h
            · split
              · exact skipLiteral_skips (by decide) (by decide) h
              · split
                · exact skipLiteral_skips (by decide) (by decide) h
                · exact skipNumber_skips h

/-- The end of the value at a pointer. -/
theorem skip_skips (h : m.At p s) (hfuel : s.length < fuel) :
    Skips m s (m.skipValue fuel p) (skip s) := skipValue_skips h hfuel le_rfl

theorem skipMember_skip (h : m.At p s) (hfuel : s.length < fuel) :
    Skips m s (m.skipMember (m.skipValue fuel) fuel p) (skipMember skip s) :=
  skipMember_skips (fun hat hlt => skip_skips hat hlt) h hfuel.le hfuel.le

/-! ### Elements and members -/

/-- A search on pointers ends as the one on texts does, with no more than so much left. -/
def Lands (m : Memory) (bound : Nat) (result : Except Fault (Except Failure Nat)) :
    Except Failure Bytes → Prop
  | .ok r => r.length < bound ∧ ∃ q, result = .ok (.ok q) ∧ m.At q r
  | .error e => result = .ok (.error e)

theorem Lands.mono {result : Except Fault (Except Failure Nat)} {y : Except Failure Bytes}
    (h : Lands m n result y) (hle : n ≤ bound) : Lands m bound result y := by
  cases y with
  | error e => exact h
  | ok r => exact ⟨Nat.lt_of_lt_of_le h.1 hle, h.2⟩

theorem lands_pointer (h : m.At q r) (hlt : r.length < bound) :
    Lands m bound (.ok (.ok q)) (.ok r) := ⟨hlt, q, rfl, h⟩

theorem Memory.At.read (h : m.At p s) : m.read p = .ok (s.headD 0) := by
  cases s with
  | nil => exact h.read_nil
  | cons c s => exact h.read_cons

theorem headD_eq_iff (hc : c ≠ 0) : s.headD 0 = c ↔ s.head? = some c := by
  cases s with
  | nil => simp [Ne.symm hc]
  | cons d s => simp

/-- What skips a comma and what skips a colon have in common. -/
def skipSeparator (d : UInt8) (s : Bytes) : Except Failure Bytes :=
  match skipWhitespace s with
  | c :: s => if c = d then .ok (skipWhitespace s) else .error .formatError
  | [] => .error .formatError

theorem skipComma_eq (s : Bytes) : skipComma s = skipSeparator comma s := rfl

theorem skipColon_eq (s : Bytes) : skipColon s = skipSeparator colon s := rfl

/-- Behind spaces, there is the byte that is looked for, or another one. -/
theorem separator_at {d : UInt8} (hd : d ≠ 0) (h : m.At p s) (hfuel : s.length < fuel) :
    ∃ q c, m.skipWhitespace fuel p = .ok q ∧ m.read q = .ok c ∧
      (c = d ∧ (∃ s₁ q₁, skipSeparator d s = .ok s₁ ∧ m.skipWhitespace fuel (q + 1) = .ok q₁ ∧
        m.At q₁ s₁ ∧ s₁.length < s.length) ∨
      c ≠ d ∧ skipSeparator d s = .error .formatError) := by
  obtain ⟨q, hq, hat⟩ := skipWhitespace_at h hfuel
  have hle : (skipWhitespace s).length ≤ s.length := length_dropWhile_le _ _
  unfold skipSeparator
  cases hspace : skipWhitespace s with
  | nil =>
    rw [hspace] at hat
    exact ⟨q, 0, hq, hat.read_nil, .inr ⟨Ne.symm hd, rfl⟩⟩
  | cons c s₁ =>
    rw [hspace] at hat hle
    rw [List.length_cons] at hle
    refine ⟨q, c, hq, hat.read_cons, ?_⟩
    by_cases hc : c = d
    · obtain ⟨q₁, hq₁, hat₁⟩ := skipWhitespace_at hat.cons (show _ < fuel by omega)
      have hle₁ : (skipWhitespace s₁).length ≤ s₁.length := length_dropWhile_le _ _
      exact .inl ⟨hc, skipWhitespace s₁, q₁, if_pos hc, hq₁, hat₁, by omega⟩
    · exact .inr ⟨hc, if_neg hc⟩

theorem skipElements_lands {index : Int} {target : Nat}
    (htarget : index % (2 ^ longBits : Nat) = target) (hlt : target < 2 ^ longBits) (h : m.At p s)
    (hfuel : s.length < fuel) (hrounds : s.length < rounds) (hi : i + n = target) :
    Lands m (s.length + 1) (m.skipElements longBits index fuel rounds i p) (skipElements n s) := by
  induction rounds generalizing p s i n with
  | zero => omega
  | succ rounds ih =>
    simp only [Memory.skipElements, htarget, Int.ofNat_inj]
    cases n with
    | zero =>
      rw [if_pos (by omega)]
      exact lands_pointer h (Nat.lt_succ_self _)
    | succ n =>
      have hfirst := skip_skips h hfuel
      rw [if_neg (by omega)]
      simp only [h.read, bind, Except.bind, headD_eq_iff (show Bracket.array.closing ≠ 0 by decide),
        skipElements]
      by_cases hclosed : s.head? = some Bracket.array.closing
      · rw [if_pos hclosed, if_pos hclosed]
        rfl
      · rw [if_neg hclosed, if_neg hclosed]
        cases hs : skip s with
        | none =>
          rw [hs] at hfirst
          rw [show m.skipValue fuel p = _ from hfirst]
          rfl
        | some s₁ =>
          rw [hs] at hfirst
          obtain ⟨hshorter, q, hq, hat⟩ := hfirst
          obtain ⟨q₁, c, hq₁, hread, hcases⟩ :=
            separator_at (d := comma) (by decide) hat (show _ < fuel by omega)
          simp only [hq, hq₁, hread]
          rcases hcases with ⟨hc, s₂, q₂, hskipped, hq₂, hat₂, hless⟩ | ⟨hc, hother⟩
          · rw [if_pos hc, hq₂, skipComma_eq, hskipped]
            have hnext : (i + 1) % 2 ^ longBits = i + 1 :=
              Nat.mod_eq_of_lt (Nat.lt_of_le_of_lt (show i + 1 ≤ target by omega) hlt)
            dsimp only
            rw [hnext]
            exact (ih hat₂ (by omega) (by omega) (by omega)).mono (by omega)
          · rw [if_neg hc, skipComma_eq, hother]
            rfl

/-- The index as a `size_t`. -/
theorem emod_toNat (index : Int) (longBits : Nat) :
    index % (2 ^ longBits : Nat) = (index % (2 ^ longBits : Nat)).toNat ∧
      (index % (2 ^ longBits : Nat)).toNat < 2 ^ longBits := by
  have hpow : 0 < 2 ^ longBits := Nat.two_pow_pos longBits
  have hnonneg := Int.emod_nonneg index (Int.natCast_ne_zero.mpr hpow.ne')
  have hless := Int.emod_lt_of_pos index (Int.natCast_pos.mpr hpow)
  exact ⟨(Int.toNat_of_nonneg hnonneg).symm, by omega⟩

theorem goToElement_lands (longBits : Nat) (index : Int) (h : m.At p s) (hfuel : s.length < fuel) :
    Lands m s.length (m.goToElement longBits index fuel p)
      (goToElement (index % (2 ^ longBits : Nat)).toNat s) := by
  cases s with
  | nil =>
    simp only [Memory.goToElement, h.read_nil, bind, Except.bind]
    rfl
  | cons c s =>
    rw [List.length_cons] at hfuel ⊢
    simp only [Memory.goToElement, h.read_cons, bind, Except.bind, goToElement]
    by_cases hopening : c = Bracket.array.opening
    · obtain ⟨q, hq, hat⟩ := skipWhitespace_at h.cons (show _ < fuel by omega)
      have hle : (skipWhitespace s).length ≤ s.length := length_dropWhile_le _ _
      obtain ⟨htarget, hless⟩ := emod_toNat index longBits
      rw [if_pos hopening, if_pos hopening, hq]
      exact (skipElements_lands htarget hless hat (by omega) (by omega) (Nat.zero_add _)).mono
        (by omega)
    · rw [if_neg hopening, if_neg hopening]
      rfl

theorem isName_at (hname : 0 ∉ name) (h : m.At p s) :
    m.isName name p = .ok ((name ++ [quote]).isPrefixOf s) := by
  simp only [Memory.isName, matchesText_at hname h, bind, Except.bind]
  cases hmatches : name.isPrefixOf s with
  | false =>
    have hlonger : (name ++ [quote]).isPrefixOf s = false := by
      rw [Bool.eq_false_iff, Ne, List.isPrefixOf_iff_prefix] at hmatches ⊢
      intro hlonger
      exact hmatches ((List.prefix_append _ _).trans hlonger)
    rw [hlonger]
    rfl
  | true =>
    obtain ⟨r, rfl⟩ := List.isPrefixOf_iff_prefix.mp hmatches
    have hquote : (name ++ [quote]).isPrefixOf (name ++ r) = decide (r.head? = some quote) := by
      rw [Bool.eq_iff_iff, List.isPrefixOf_iff_prefix, List.prefix_append_right_inj,
        decide_eq_true_iff]
      cases r with
      | nil => simp
      | cons c r => simp [eq_comm]
    simp only [if_true, h.append.read, headD_eq_iff (show quote ≠ 0 by decide), hquote]
    rfl

theorem findMember_lands (hname : 0 ∉ name) (h : m.At p s) (hfuel : s.length < fuel)
    (hrounds : s.length < rounds) (hn : s.length < n) :
    Lands m s.length (m.findMember name fuel rounds p) (findMember name n s) := by
  induction rounds generalizing p s n with
  | zero => omega
  | succ rounds ih =>
    obtain ⟨n, rfl⟩ := Nat.exists_eq_succ_of_ne_zero (show n ≠ 0 by omega)
    simp only [Memory.findMember, h.read, bind, Except.bind, findMember,
      headD_eq_iff (show quote ≠ 0 by decide),
      headD_eq_iff (show Bracket.object.closing ≠ 0 by decide)]
    by_cases hquote : s.head? = some quote
    · rw [if_pos hquote, if_pos hquote]
      obtain ⟨s, rfl⟩ : ∃ s', s = quote :: s' := by
        cases s with
        | nil => cases hquote
        | cons c s => exact ⟨s, by rw [Option.some.inj hquote]⟩
      rw [List.length_cons] at *
      rw [isName_at hname h.cons]
      dsimp only
      rw [List.tail_cons]
      cases hsame : (name ++ [quote]).isPrefixOf s with
      | true =>
        obtain ⟨r, rfl⟩ := List.isPrefixOf_iff_prefix.mp hsame
        have hafter : m.At (p + name.length + 2) r := by
          have happend := Memory.At.append (w := quote :: (name ++ [quote])) h
          rwa [List.length_cons, List.length_append, List.length_singleton, ← Nat.add_assoc,
            ← Nat.add_assoc] at happend
        have hdrop : (quote :: (name ++ [quote] ++ r)).drop (name.length + 2) = r := by simp
        rw [List.length_append] at hfuel ⊢
        obtain ⟨q, c, hq, hread, hcases⟩ :=
          separator_at (d := colon) (by decide) hafter (show _ < fuel by omega)
        simp only [if_true, hq, hread, hdrop]
        rcases hcases with ⟨hc, s₂, q₂, hskipped, hq₂, hat₂, hless⟩ | ⟨hc, hother⟩
        · rw [if_pos hc, hq₂, skipColon_eq, hskipped]
          exact lands_pointer hat₂ (by omega)
        · rw [if_neg hc, skipColon_eq, hother]
          rfl
      | false =>
        have hskip := skipMember_skip h hfuel
        simp only [Bool.false_eq_true, if_false]
        cases hs : skipMember skip (quote :: s) with
        | none =>
          rw [hs] at hskip
          rw [show m.skipMember (m.skipValue fuel) fuel p = _ from hskip]
          rfl
        | some s₁ =>
          rw [hs] at hskip
          obtain ⟨hshorter, q, hq, hat⟩ := hskip
          rw [List.length_cons] at hshorter
          obtain ⟨q₁, c, hq₁, hread, hcases⟩ :=
            separator_at (d := comma) (by decide) hat (show _ < fuel by omega)
          simp only [hq, hq₁, hread]
          rcases hcases with ⟨hc, s₂, q₂, hskipped, hq₂, hat₂, hless⟩ | ⟨hc, hother⟩
          · rw [if_pos hc, hq₂, skipComma_eq, hskipped]
            exact (ih hat₂ (by omega) (by omega) (by omega)).mono (by omega)
          · rw [if_neg hc, skipComma_eq, hother]
            rfl
    · rw [if_neg hquote, if_neg hquote]
      by_cases hclosed : s.head? = some Bracket.object.closing
      · rw [if_pos hclosed, if_pos hclosed]
        rfl
      · rw [if_neg hclosed, if_neg hclosed]
        rfl

theorem goToMember_lands (hname : 0 ∉ name) (h : m.At p s) (hfuel : s.length < fuel) :
    Lands m s.length (m.goToMember name fuel p) (goToMember name s) := by
  cases s with
  | nil =>
    simp only [Memory.goToMember, h.read_nil, bind, Except.bind]
    rfl
  | cons c s =>
    rw [List.length_cons] at hfuel ⊢
    simp only [Memory.goToMember, h.read_cons, bind, Except.bind, goToMember]
    by_cases hopening : c = Bracket.object.opening
    · obtain ⟨q, hq, hat⟩ := skipWhitespace_at h.cons (show _ < fuel by omega)
      have hle : (skipWhitespace s).length ≤ s.length := length_dropWhile_le _ _
      rw [if_pos hopening, if_pos hopening, hq]
      exact (findMember_lands hname hat (by omega) (by omega) (Nat.lt_succ_self _)).mono (by omega)
    · rw [if_neg hopening, if_neg hopening]
      rfl

/-! ### Specifiers -/

theorem getMemberName_at (h : spec.At p s) (name : Bytes) :
    spec.getMemberName n p name =
      .ok (if (s.takeWhile isalnum).length < n then
        some (name ++ s.takeWhile isalnum, p + (s.takeWhile isalnum).length) else none) := by
  induction n generalizing p s name with
  | zero => rfl
  | succ n ih =>
    cases s with
    | nil =>
      simp only [Memory.getMemberName, h.read_nil, bind, Except.bind]
      rw [if_neg (by decide)]
      simp [pure, Except.pure]
    | cons c s =>
      simp only [Memory.getMemberName, h.read_cons, bind, Except.bind]
      cases hc : isalnum c with
      | true =>
        rw [if_pos rfl, ih h.cons, List.takeWhile_cons_of_pos hc]
        simp [Nat.add_comm, Nat.add_left_comm]
      | false =>
        rw [if_neg (by decide), List.takeWhile_cons_of_neg (by rw [hc]; decide)]
        simp [pure, Except.pure]

theorem strtoul_rest {value : Nat} (h : strtoul longBits s = some (value, r)) :
    (∃ w, s = w ++ r) ∧ value < 2 ^ longBits := by
  have hpos : 0 < 2 ^ longBits := Nat.two_pow_pos longBits
  unfold strtoul at h
  dsimp only at h
  split at h
  · cases h
  · simp only [Option.some.injEq, Prod.mk.injEq] at h
    obtain ⟨rfl, rfl⟩ := h
    constructor
    · have hspaces : Plain s (s.dropWhile isspace) := plain_dropWhile (by decide) (by decide) s
      have hdigits : Plain (dropSign (s.dropWhile isspace))
          ((dropSign (s.dropWhile isspace)).dropWhile isDigit) :=
        plain_dropWhile (by decide) (by decide) _
      obtain ⟨w, hw, -⟩ := (hspaces.trans (plain_dropSign _)).trans hdigits
      exact ⟨w, hw⟩
    · split
      · omega
      · split
        · exact Nat.mod_lt _ hpos
        · omega

/-- An index between brackets is read as from the text, and is not negative. -/
theorem getIndex_cases (longBits : Nat) (h : spec.At p s) :
    getIndex longBits s = none ∧ spec.getIndex longBits p = .ok none ∨
    ∃ (index : Nat) (r : Bytes) (q : Nat), getIndex longBits s = some (index, r) ∧
      r.length < s.length ∧ index < 2 ^ longBits ∧
      spec.getIndex longBits p = .ok (some (index, q)) ∧ spec.At q r := by
  simp only [Memory.getIndex, Memory.strtoul, h.read, h.drop, bind, Except.bind, getIndex,
    Option.bind]
  cases hs : strtoul longBits s with
  | none => exact .inl ⟨rfl, rfl⟩
  | some found =>
    obtain ⟨value, r⟩ := found
    obtain ⟨⟨w, rfl⟩, hvalue⟩ := strtoul_rest hs
    simp only [pure, Except.pure]
    rw [h.rest]
    by_cases hindex : value < 2 ^ longBits / 2
    · have hlong : toLong longBits value = value := if_pos hindex
      rw [hlong, if_neg (Int.not_lt.mpr (Int.natCast_nonneg value))]
      simp only [h.append.read, headD_eq_iff (show Bracket.array.closing ≠ 0 by decide)]
      by_cases hclosed : r.head? = some Bracket.array.closing
      · obtain ⟨r, rfl⟩ : ∃ r', r = Bracket.array.closing :: r' := by
          cases r with
          | nil => cases hclosed
          | cons d r => exact ⟨r, by rw [Option.some.inj hclosed]⟩
        rw [if_pos hclosed, if_pos ⟨hindex, hclosed⟩]
        refine .inr ⟨value, r, _, rfl, ?_, hvalue, rfl, h.append.cons⟩
        rw [List.length_append, List.length_cons]
        omega
      · rw [if_neg hclosed, if_neg fun hboth => hclosed hboth.2]
        exact .inl ⟨rfl, rfl⟩
    · have hnegative : toLong longBits value < 0 := by
        rw [toLong, if_neg hindex]
        omega
      rw [if_pos hnegative, if_neg fun hboth => hindex hboth.1]
      exact .inl ⟨rfl, rfl⟩

/-- A search goes on from where a step of it has landed. -/
theorem Lands.andThen {next : Nat → Except Fault (Except Failure Nat)}
    {nextText : Bytes → Except Failure Bytes} {result : Except Fault (Except Failure Nat)}
    {y : Except Failure Bytes} (h : Lands m bound result y)
    (hnext : ∀ {q r}, m.At q r → r.length < bound → Lands m n (next q) (nextText r)) :
    Lands m n (do match ← result with | .error e => return .error e | .ok q => next q)
      (y >>= nextText) := by
  cases y with
  | error e =>
    rw [show result = _ from h]
    rfl
  | ok r =>
    obtain ⟨hlt, q, rfl, hat⟩ := h
    exact hnext hat hlt

theorem isalpha_headD : isalpha (s.headD 0) = true ↔ s.head?.any isalpha = true := by
  cases s with
  | nil => exact iff_of_false (by decide) (by simp)
  | cons c s => simp

/-- The name of a member takes at least the letter that it starts with. -/
theorem getMemberName_cases (h : spec.At p s) (hs : isalpha (s.headD 0) = true) :
    getMemberName memberNameBytes s = none ∧
      spec.getMemberName memberNameBytes p [] = .ok none ∨
    ∃ (name r : Bytes) (q : Nat), getMemberName memberNameBytes s = some (name, r) ∧ 0 ∉ name ∧
      r.length < s.length ∧
      spec.getMemberName memberNameBytes p [] = .ok (some (name, q)) ∧ spec.At q r := by
  rw [getMemberName_at h, getMemberName]
  by_cases hroom : (s.takeWhile isalnum).length < memberNameBytes
  · have hsplit : s.takeWhile isalnum ++ s.dropWhile isalnum = s := List.takeWhile_append_dropWhile
    rw [if_pos hroom, if_pos hroom]
    refine .inr ⟨_, _, _, rfl, fun hzero => ?_, ?_, rfl, Memory.At.append (hsplit.symm ▸ h)⟩
    · exact absurd (List.mem_takeWhile_imp hzero) (by decide)
    · cases s with
      | nil => cases hs
      | cons c s =>
        have halnum : isalnum c = true := by
          rw [isalnum, show isalpha c = true from hs, Bool.true_or]
        rw [List.dropWhile_cons_of_pos halnum, List.length_cons]
        exact Nat.lt_succ_of_le (length_dropWhile_le _ _)
  · rw [if_neg hroom, if_neg hroom]
    exact .inl ⟨rfl, rfl⟩

theorem findFrom_lands {u : Bytes} (hu : spec.At n u) (h : m.At p s) (hfuel : s.length < fuel)
    (hrounds : u.length < rounds) (hi : u.length < i) :
    Lands m (s.length + 1) (m.findFrom spec longBits fuel rounds n p)
      (findFrom longBits i u s) := by
  induction rounds generalizing p s n u i with
  | zero => omega
  | succ rounds ih =>
    obtain ⟨i, rfl⟩ := Nat.exists_eq_succ_of_ne_zero (show i ≠ 0 by omega)
    cases s with
    | nil =>
      simp only [Memory.findFrom, h.read_nil, bind, Except.bind]
      rfl
    | cons b s =>
      simp only [Memory.findFrom, h.read_cons, bind, Except.bind, findFrom, if_neg h.ne_zero,
        if_neg (List.cons_ne_nil b s)]
      cases u with
      | nil =>
        rw [hu.read_nil]
        exact lands_pointer h (Nat.lt_succ_self _)
      | cons c u =>
        rw [List.length_cons] at hrounds hi
        rw [hu.read_cons]
        simp only [if_neg hu.ne_zero]
        by_cases hopening : c = Bracket.array.opening
        · rw [if_pos hopening, if_pos hopening]
          rcases getIndex_cases longBits hu.cons with
            ⟨htext, hget⟩ | ⟨index, r, q, htext, hless, hindex, hget, hat⟩
          · rw [htext, hget]
            rfl
          · rw [htext, hget]
            have hgo := goToElement_lands longBits index h hfuel
            have hsize : ((index : Int) % (2 ^ longBits : Nat)).toNat = index := by
              rw [← Int.natCast_emod, Int.toNat_natCast, Nat.mod_eq_of_lt hindex]
            rw [hsize] at hgo
            exact hgo.andThen fun hat₁ hlt =>
              (ih hat hat₁ (by omega) (by omega) (by omega)).mono (by omega)
        · rw [if_neg hopening, if_neg hopening]
          have hstart : ∃ (start : Bytes) (q : Nat), (if c = 0x2e then u else c :: u) = start ∧
              (if c = 0x2e then n + 1 else n) = q ∧ spec.At q start ∧
              start.length ≤ u.length + 1 := by
            split
            · exact ⟨_, _, rfl, rfl, hu.cons, Nat.le_succ _⟩
            · exact ⟨_, _, rfl, rfl, hu, le_rfl⟩
          obtain ⟨start, q, hstart, hq, hat, hle⟩ := hstart
          rw [hstart, hq, hat.read]
          simp only [← isalpha_headD]
          by_cases halpha : isalpha (start.headD 0) = true
          · rw [if_pos halpha, if_pos halpha]
            rcases getMemberName_cases hat halpha with
              ⟨htext, hget⟩ | ⟨name, r, q₁, htext, hname, hless, hget, hat₁⟩
            · rw [htext, hget]
              rfl
            · rw [htext, hget]
              exact (goToMember_lands hname h hfuel).andThen fun hat₂ hlt =>
                (ih hat₁ hat₂ (by omega) (by omega) (by omega)).mono (by omega)
          · rw [if_neg halpha, if_neg halpha]
            rfl

/-- The search on pointers is the one on texts. -/
theorem find_lands (h : m.At p s) (hfuel : s.length < fuel) (hspec : spec.text.length < fuel) :
    Lands m (s.length + 1) (m.find spec longBits fuel p) (find longBits s spec.text) :=
  findFrom_lands (at_drop (Nat.zero_le _)) h hfuel hspec (Nat.lt_succ_self _)

/-! ### Every scanner comes to an end -/

/-- From some number of rounds on, all runs have one and the same result, which is fine. -/
def Halts {α : Type} (run : Nat → Except Fault α) (fine : α → Prop) : Prop :=
  ∃ a, fine a ∧ ∃ n, ∀ fuel, n ≤ fuel → run fuel = .ok a

/-- A pointer behind another one, and not behind the terminator. -/
def Memory.Ahead (m : Memory) (p q : Nat) : Prop := p < q ∧ q ≤ m.text.length

/-- From a pointer, all scanners halt, without a read behind the terminator, and go forward. -/
structure ScannersHalt (m : Memory) (p : Nat) : Prop where
  skipValue : Halts (fun fuel => m.skipValue fuel p) fun result => ∀ q ∈ result, m.Ahead p q
  skipObject : Halts (fun fuel => m.skipObject (m.skipValue fuel) fuel p)
    fun result => ∀ q ∈ result, m.Ahead p q
  skipArray : Halts (fun fuel => m.skipArray (m.skipValue fuel) fuel p)
    fun result => ∀ q ∈ result, m.Ahead p q
  skipMember : Halts (fun fuel => m.skipMember (m.skipValue fuel) fuel p)
    fun result => ∀ q ∈ result, m.Ahead p q
  skipString : Halts (fun fuel => m.skipString fuel p) fun result => ∀ q ∈ result, m.Ahead p q
  skipLiteral : ∀ text : Bytes, 0 ∉ text → text ≠ [] →
    Halts (fun _ => m.skipLiteral text p) fun result => ∀ q ∈ result, m.Ahead p q
  skipNumber : Halts (fun _ => m.skipNumber p) fun result => ∀ q ∈ result, m.Ahead p q
  goToElement : ∀ (longBits : Nat) (index : Int),
    Halts (fun fuel => m.goToElement longBits index fuel p)
      fun result => ∀ q, result = .ok q → m.Ahead p q
  goToMember : ∀ name : Bytes, 0 ∉ name →
    Halts (fun fuel => m.goToMember name fuel p) fun result => ∀ q, result = .ok q → m.Ahead p q
  find : ∀ (longBits : Nat) (spec : Memory), Halts (fun fuel => m.find spec longBits fuel p)
    fun result => ∀ q, result = .ok q → p ≤ q ∧ q ≤ m.text.length

theorem Memory.At.inj (h : m.At p s) (h' : m.At q s) : p = q := by
  have hp := h.length
  have hq := h'.length
  omega

theorem Memory.At.ahead (h : m.At p s) (h' : m.At q r) (hlt : r.length < s.length) :
    m.Ahead p q := by
  have hp := h.length
  have hq := h'.length
  exact ⟨by omega, h'.le⟩

theorem Skips.halts {run : Nat → Pointer} {y : Option Bytes} (h : m.At p s)
    (hrun : ∀ fuel, n ≤ fuel → Skips m s (run fuel) y) :
    Halts run fun result => ∀ q ∈ result, m.Ahead p q := by
  cases y with
  | none =>
    refine ⟨none, fun q hq => ?_, n, hrun⟩
    cases hq
  | some r =>
    obtain ⟨hlt, q, -, hat⟩ := hrun n le_rfl
    refine ⟨some q, fun q' hq' => ?_, n, fun fuel hfuel => ?_⟩
    · cases hq'
      exact h.ahead hat hlt
    · obtain ⟨-, q', hq', hat'⟩ := hrun fuel hfuel
      rw [hq', hat.inj hat']

theorem Lands.halts {run : Nat → Except Fault (Except Failure Nat)} {y : Except Failure Bytes}
    {fine : Nat → Prop} (hfine : ∀ q r, m.At q r → r.length < bound → fine q)
    (hrun : ∀ fuel, n ≤ fuel → Lands m bound (run fuel) y) :
    Halts run fun result => ∀ q, result = .ok q → fine q := by
  cases y with
  | error e =>
    refine ⟨.error e, fun q hq => ?_, n, hrun⟩
    cases hq
  | ok r =>
    obtain ⟨hlt, q, -, hat⟩ := hrun n le_rfl
    refine ⟨.ok q, fun q' hq' => ?_, n, fun fuel hfuel => ?_⟩
    · cases hq'
      exact hfine q r hat hlt
    · obtain ⟨-, q', hq', hat'⟩ := hrun fuel hfuel
      rw [hq', hat.inj hat']

/-- From everywhere in a string, all scanners come to an end within it. -/
theorem scannersHalt (m : Memory) (hp : p ≤ m.text.length) : ScannersHalt m p := by
  have h := at_drop hp
  generalize m.text.drop p = s at h
  have hvalue : ∀ fuel, s.length + 1 ≤ fuel →
      SkipsBelow m (s.length + 1) (m.skipValue fuel) skip :=
    fun fuel hfuel _ _ hat hlt => skip_skips hat (Nat.lt_of_lt_of_le hlt hfuel)
  have hmember : ∀ fuel, s.length + 1 ≤ fuel →
      SkipsBelow m (s.length + 1) (m.skipMember (m.skipValue fuel) fuel) (skipMember skip) :=
    fun fuel hfuel _ _ hat hlt => skipMember_skip hat (Nat.lt_of_lt_of_le hlt hfuel)
  constructor
  case skipValue => exact Skips.halts h fun fuel hfuel => skip_skips h hfuel
  case skipObject =>
    exact Skips.halts h fun fuel hfuel =>
      skipBracket_skips .object (hmember fuel hfuel) h (Nat.le_of_succ_le hfuel) (Nat.le_succ _)
  case skipArray =>
    exact Skips.halts h fun fuel hfuel =>
      skipBracket_skips .array (hvalue fuel hfuel) h (Nat.le_of_succ_le hfuel) (Nat.le_succ _)
  case skipMember => exact Skips.halts h fun fuel hfuel => skipMember_skip h hfuel
  case skipString =>
    exact Skips.halts h fun fuel hfuel => skipString_skips h (Nat.le_of_succ_le hfuel)
  case skipLiteral =>
    intro text htext hne
    exact Skips.halts (n := 0) h fun _ _ => skipLiteral_skips htext hne h
  case skipNumber => exact Skips.halts (n := 0) h fun _ _ => skipNumber_skips h
  case goToElement =>
    intro longBits index
    exact Lands.halts (fun _ _ hat hlt => h.ahead hat hlt)
      fun fuel hfuel => goToElement_lands longBits index h hfuel
  case goToMember =>
    intro name hname
    exact Lands.halts (fun _ _ hat hlt => h.ahead hat hlt)
      fun fuel hfuel => goToMember_lands hname h hfuel
  case find =>
    intro longBits spec
    refine Lands.halts (n := max (s.length + 1) (spec.text.length + 1)) (fun q r hat hlt => ?_)
      fun fuel hfuel => find_lands h (le_trans (le_max_left _ _) hfuel)
        (le_trans (le_max_right _ _) hfuel)
    have hp := h.length
    have hq := hat.length
    omega

/-- An array that is not closed, with a backslash before the terminator. -/
def openArray : Memory := ⟨[Bracket.array.opening, quote, backslash], by decide⟩

theorem scannersHalt_openArray : ScannersHalt openArray 1 := scannersHalt openArray (by decide)

end MangOH.Json
