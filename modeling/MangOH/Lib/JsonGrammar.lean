import Mathlib.Data.List.Basic

/-! The grammar of JSON texts over a choice of tokens, the trees it derives, and the tokens of
RFC 8259. -/
namespace MangOH.JsonGrammar

abbrev Bytes := List UInt8

def quote : UInt8 := 0x22
def backslash : UInt8 := 0x5c
def comma : UInt8 := 0x2c
def colon : UInt8 := 0x3a

/-- What is enclosed in brackets: elements, or members with names. -/
inductive Bracket
  | array
  | object
deriving DecidableEq, Repr

def Bracket.opening : Bracket → UInt8
  | .array => 0x5b
  | .object => 0x7b

def Bracket.closing : Bracket → UInt8
  | .array => 0x5d
  | .object => 0x7d

inductive Scalar
  | null
  | boolean
  | number
  | string
deriving DecidableEq, Repr

/-- A value with its text; the text of a string is what stands between the quotes. Elements of
arrays have empty names. -/
inductive Tree
  | scalar (kind : Scalar) (text : Bytes)
  | bracket (kind : Bracket) (text : Bytes) (items : List (Bytes × Tree))

/-- The literals: `true`, `false` and `null`. -/
inductive Literal : Scalar → Bytes → Prop
  | true : Literal .boolean [0x74, 0x72, 0x75, 0x65]
  | false : Literal .boolean [0x66, 0x61, 0x6c, 0x73, 0x65]
  | null : Literal .null [0x6e, 0x75, 0x6c, 0x6c]

/-- The tokens of a language that is built like JSON. -/
structure Lexis where
  space : UInt8 → Prop
  /-- what may stand between the quotes of a string -/
  string : Bytes → Prop
  /-- a text starts with a number, and another text follows it -/
  number : Bytes → Bytes → Prop
  /-- what may follow a literal -/
  ends : Bytes → Prop
  /-- commas may be left out -/
  gap : Prop

variable {L M : Lexis} {s s₁ s₂ s₃ r r' w : Bytes} {c : UInt8} {k : Bracket} {t : Tree}

/-- A text starts with white space, and another text follows it. -/
inductive Spaces (L : Lexis) : Bytes → Bytes → Prop
  | nil (s : Bytes) : Spaces L s s
  | cons {c : UInt8} {s r : Bytes} (hc : L.space c) (h : Spaces L s r) : Spaces L (c :: s) r

/-- What stands between two elements or members. -/
inductive Separator (L : Lexis) : Bytes → Bytes → Prop
  | comma {s s₁ r : Bytes} (h : Spaces L s (comma :: s₁)) (h₁ : Spaces L s₁ r) : Separator L s r
  | gap {s r : Bytes} (hgap : L.gap) (h : Spaces L s r) : Separator L s r

/-- The phrases: a value, one element or member, and all the elements or members up to the closing
bracket. -/
inductive Symbol
  | value
  | item (k : Bracket)
  | items (k : Bracket)

/-- A text starts with a phrase, another text follows it, and the phrase stands for these values. -/
inductive Derives (L : Lexis) : Symbol → Bytes → Bytes → List (Bytes × Tree) → Prop
  | literal {kind : Scalar} {w s r : Bytes} (hw : Literal kind w) (hr : L.ends r)
      (hs : s = w ++ r) : Derives L .value s r [([], .scalar kind w)]
  | number {w s r : Bytes} (hn : L.number s r) (hs : s = w ++ r) :
      Derives L .value s r [([], .scalar .number w)]
  | string {w s r : Bytes} (hw : L.string w) (hs : s = quote :: (w ++ quote :: r)) :
      Derives L .value s r [([], .scalar .string w)]
  | empty {w s r : Bytes} (k : Bracket) (h : Spaces L s (k.closing :: r))
      (hs : k.opening :: s = w ++ r) :
      Derives L .value (k.opening :: s) r [([], .bracket k w [])]
  | bracket {w s s₁ r : Bytes} {items : List (Bytes × Tree)} (k : Bracket) (h : Spaces L s s₁)
      (hi : Derives L (.items k) s₁ r items) (hs : k.opening :: s = w ++ r) :
      Derives L .value (k.opening :: s) r [([], .bracket k w items)]
  | element {s r : Bytes} {t : Tree} (hv : Derives L .value s r [([], t)]) :
      Derives L (.item .array) s r [([], t)]
  | member {w s s₁ s₂ s₃ r : Bytes} {t : Tree} (hw : L.string w)
      (hs : s = quote :: (w ++ quote :: s₁)) (h₁ : Spaces L s₁ (colon :: s₂))
      (h₂ : Spaces L s₂ s₃) (hv : Derives L .value s₃ r [([], t)]) :
      Derives L (.item .object) s r [(w, t)]
  | last {s s₁ r : Bytes} {items : List (Bytes × Tree)} (k : Bracket)
      (hi : Derives L (.item k) s s₁ items) (h : Spaces L s₁ (k.closing :: r)) :
      Derives L (.items k) s r items
  | more {s s₁ s₂ r : Bytes} {items rest : List (Bytes × Tree)} (k : Bracket)
      (hi : Derives L (.item k) s s₁ items) (h : Separator L s₁ s₂)
      (hr : Derives L (.items k) s₂ r rest) : Derives L (.items k) s r (items ++ rest)

/-- A whole text: one value with white space around it. -/
def Text (L : Lexis) (s : Bytes) (t : Tree) : Prop :=
  ∃ s₁ r, Spaces L s s₁ ∧ Derives L .value s₁ r [([], t)] ∧ Spaces L r []

def IsText (L : Lexis) (s : Bytes) : Prop := ∃ t, Text L s t

/-! ### White space -/

theorem Spaces.trans (h : Spaces L s s₁) (h₁ : Spaces L s₁ r) : Spaces L s r := by
  induction h with
  | nil => exact h₁
  | cons hc _ ih => exact .cons hc (ih h₁)

theorem Spaces.append (h : Spaces L s r) : ∃ w, s = w ++ r ∧ ∀ c ∈ w, L.space c := by
  induction h with
  | nil s => exact ⟨[], rfl, by simp⟩
  | @cons c s r hc _ ih =>
    obtain ⟨w, rfl, hw⟩ := ih
    exact ⟨c :: w, rfl, by simpa [hc] using hw⟩

theorem Spaces.map (hspace : ∀ c, L.space c → M.space c) (h : Spaces L s r) : Spaces M s r := by
  induction h with
  | nil s => exact .nil s
  | cons hc _ ih => exact .cons (hspace _ hc) ih

theorem Spaces.length_le (h : Spaces L s r) : r.length ≤ s.length := by
  obtain ⟨w, rfl, _⟩ := h.append
  simp

/-- Two skips over white space that stop at something else stop at the same place. -/
theorem Spaces.unique (h : Spaces L s r) (h' : Spaces L s r')
    (hr : ∀ c w, r = c :: w → ¬ L.space c) (hr' : ∀ c w, r' = c :: w → ¬ L.space c) : r = r' := by
  induction h with
  | nil s =>
    cases h' with
    | nil => rfl
    | cons hc _ => exact absurd hc (hr _ _ rfl)
  | cons hc _ ih =>
    cases h' with
    | nil => exact absurd hc (hr' _ _ rfl)
    | cons _ h' => exact ih h' hr

theorem Separator.append (h : Separator L s r) : ∃ w, s = w ++ r := by
  cases h with
  | comma h h₁ =>
    obtain ⟨w, rfl, _⟩ := h.append
    obtain ⟨w₁, rfl, _⟩ := h₁.append
    exact ⟨w ++ JsonGrammar.comma :: w₁, by simp⟩
  | gap _ h =>
    obtain ⟨w, rfl, _⟩ := h.append
    exact ⟨w, rfl⟩

theorem Separator.length_le (h : Separator L s r) : r.length ≤ s.length := by
  cases h with
  | comma h h₁ =>
    have := h.length_le
    have := h₁.length_le
    simp only [List.length_cons] at *
    omega
  | gap _ h => exact h.length_le

/-! ### Other tokens -/

/-- What can follow a value within a text, as long as no comma is left out. -/
def Follows (L : Lexis) (r : Bytes) : Prop :=
  ∀ c w, r = c :: w → L.space c ∨ c = comma ∨ ∃ k : Bracket, c = k.closing

theorem follows_nil (L : Lexis) : Follows L [] := by
  intro c w h
  cases h

theorem Spaces.follows (h : Spaces L s (c :: r)) (hc : c = comma ∨ ∃ k : Bracket, c = k.closing) :
    Follows L s := by
  rintro c' w rfl
  cases h with
  | nil => exact .inr hc
  | cons hc' _ => exact .inl hc'

theorem Spaces.follows_nil (h : Spaces L s []) : Follows L s := by
  rintro c' w rfl
  cases h with
  | cons hc' _ => exact .inl hc'

/-- The phrases that end with a value. -/
def Symbol.isOpen : Symbol → Prop
  | .items _ => False
  | _ => True

/-- A phrase is one over other tokens too, if these are good for all the tokens that stand where
JSON has them. -/
theorem Derives.map {sym : Symbol} {items : List (Bytes × Tree)} (hgap : ¬ L.gap)
    (hspace : ∀ c, L.space c → M.space c) (hstring : ∀ w, L.string w → M.string w)
    (hnumber : ∀ s r, L.number s r → Follows L r → M.number s r)
    (hends : ∀ r, Follows L r → M.ends r) (h : Derives L sym s r items)
    (hr : sym.isOpen → Follows L r) : Derives M sym s r items := by
  induction h with
  | literal hw _ hs => exact .literal hw (hends _ (hr trivial)) hs
  | number hn hs => exact .number (hnumber _ _ hn (hr trivial)) hs
  | string hw hs => exact .string (hstring _ hw) hs
  | empty k h hs => exact .empty k (h.map hspace) hs
  | bracket k h _ hs ih => exact .bracket k (h.map hspace) (ih False.elim) hs
  | element _ ih => exact .element (ih fun _ => hr trivial)
  | member hw hs h₁ h₂ _ ih =>
    exact .member (hstring _ hw) hs (h₁.map hspace) (h₂.map hspace) (ih fun _ => hr trivial)
  | last k _ h ih => exact .last k (ih fun _ => h.follows (.inr ⟨k, rfl⟩)) (h.map hspace)
  | more k _ h _ ih ihr =>
    cases h with
    | comma h h₁ =>
      exact .more k (ih fun _ => h.follows (.inl rfl))
        (.comma (h.map hspace) (h₁.map hspace)) (ihr False.elim)
    | gap hg _ => exact absurd hg hgap

theorem Text.map (hgap : ¬ L.gap) (hspace : ∀ c, L.space c → M.space c)
    (hstring : ∀ w, L.string w → M.string w)
    (hnumber : ∀ s r, L.number s r → Follows L r → M.number s r)
    (hends : ∀ r, Follows L r → M.ends r) (h : Text L s t) : Text M s t := by
  obtain ⟨s₁, r, hs, hv, hr⟩ := h
  exact ⟨s₁, r, hs.map hspace, hv.map hgap hspace hstring hnumber hends fun _ => hr.follows_nil,
    hr.map hspace⟩

/-- A phrase is followed by a shorter text. -/
theorem Derives.length_lt {sym : Symbol} {items : List (Bytes × Tree)}
    (hnumber : ∀ s r, L.number s r → r.length < s.length) (h : Derives L sym s r items) :
    r.length < s.length := by
  induction h with
  | literal hw _ hs =>
    subst hs
    cases hw <;> simp only [List.length_append, List.length_cons] <;> omega
  | number hn _ => exact hnumber _ _ hn
  | string _ hs =>
    subst hs
    simp only [List.length_append, List.length_cons]
    omega
  | empty k h hs =>
    have := h.length_le
    simp only [List.length_cons] at *
    omega
  | bracket k h _ _ ih =>
    have := h.length_le
    simp only [List.length_cons] at *
    omega
  | element _ ih => exact ih
  | member _ hs h₁ h₂ _ ih =>
    have := h₁.length_le
    have := h₂.length_le
    subst hs
    simp only [List.length_append, List.length_cons] at *
    omega
  | last k _ h ih =>
    have := h.length_le
    simp only [List.length_cons] at *
    omega
  | more k _ h _ ih ihr =>
    have := h.length_le
    omega

/-- What follows a phrase is a suffix of the text. -/
theorem Derives.append {sym : Symbol} {items : List (Bytes × Tree)} (h : Derives L sym s r items) :
    ∃ w, s = w ++ r := by
  induction h with
  | literal _ _ hs => exact ⟨_, hs⟩
  | number _ hs => exact ⟨_, hs⟩
  | @string w _ r _ hs => exact ⟨quote :: (w ++ [quote]), by simp [hs]⟩
  | empty _ _ hs => exact ⟨_, hs⟩
  | bracket _ _ _ hs => exact ⟨_, hs⟩
  | element _ ih => exact ih
  | @member w _ s₁ s₂ s₃ r _ _ hs h₁ h₂ _ ih =>
    obtain ⟨v, rfl⟩ := ih
    obtain ⟨v₁, rfl, _⟩ := h₁.append
    obtain ⟨v₂, rfl, _⟩ := h₂.append
    exact ⟨quote :: (w ++ quote :: (v₁ ++ colon :: (v₂ ++ v))), by simp [hs]⟩
  | last k _ h ih =>
    obtain ⟨v, rfl⟩ := ih
    obtain ⟨v₁, rfl, _⟩ := h.append
    exact ⟨v ++ (v₁ ++ [k.closing]), by simp⟩
  | more k _ h _ ih ihr =>
    obtain ⟨v, rfl⟩ := ih
    obtain ⟨v₁, rfl⟩ := h.append
    obtain ⟨v₂, rfl⟩ := ihr
    exact ⟨v ++ (v₁ ++ v₂), by simp⟩

theorem exists_empty (h : Spaces L s (k.closing :: r)) :
    ∃ t, Derives L .value (k.opening :: s) r [([], t)] := by
  obtain ⟨w, hs, _⟩ := h.append
  exact ⟨_, .empty (w := k.opening :: (w ++ [k.closing])) k h (by simp [hs])⟩

theorem exists_bracket {items : List (Bytes × Tree)} (h : Spaces L s s₁)
    (hi : Derives L (.items k) s₁ r items) :
    ∃ t, Derives L .value (k.opening :: s) r [([], t)] := by
  obtain ⟨w, hs, _⟩ := h.append
  obtain ⟨w₁, hs₁⟩ := hi.append
  exact ⟨_, .bracket (w := k.opening :: (w ++ w₁)) k h hi (by simp [hs, hs₁])⟩

/-! ### Other surroundings -/

/-- Tokens are told by themselves and the byte behind them, and no number is empty or looks like a
bracket. -/
structure Lexis.Local (L : Lexis) : Prop where
  ends : ∀ r r', r.head? = r'.head? → L.ends r → L.ends r'
  number : ∀ w r r', r.head? = r'.head? → L.number (w ++ r) r → L.number (w ++ r') r'
  shorter : ∀ s r, L.number s r → r.length < s.length
  start : ∀ s r, L.number s r → ∀ k : Bracket, s.head? ≠ some k.opening

theorem Literal.head {kind : Scalar} (hw : Literal kind w) (k : Bracket) :
    (w ++ r).head? ≠ some k.opening := by
  cases hw <;> cases k <;> simp [Bracket.opening]

theorem Derives.head_scalar {kind : Scalar} {text : Bytes} (hL : L.Local)
    (h : Derives L .value s r [([], .scalar kind text)]) (k : Bracket) :
    s.head? ≠ some k.opening := by
  cases h with
  | literal hw _ hs =>
    subst hs
    exact hw.head k
  | number hn _ => exact hL.start _ _ hn k
  | string _ hs =>
    subst hs
    cases k <;> simp [Bracket.opening, quote]

theorem Spaces.movable (h : Spaces L s r) : ∃ w, s = w ++ r ∧ ∀ r', Spaces L (w ++ r') r' := by
  induction h with
  | nil => exact ⟨[], rfl, fun r' => .nil r'⟩
  | @cons c s r hc _ ih =>
    obtain ⟨w, rfl, hw⟩ := ih
    exact ⟨c :: w, rfl, fun r' => .cons hc (hw r')⟩

theorem Separator.movable (h : Separator L s r) :
    ∃ w, s = w ++ r ∧ ∀ r', Separator L (w ++ r') r' := by
  cases h with
  | comma h h₁ =>
    obtain ⟨w, rfl, hw⟩ := h.movable
    obtain ⟨w₁, rfl, hw₁⟩ := h₁.movable
    refine ⟨w ++ JsonGrammar.comma :: w₁, by simp, fun r' => ?_⟩
    rw [List.append_assoc, List.cons_append]
    exact .comma (hw _) (hw₁ r')
  | gap hgap h =>
    obtain ⟨w, rfl, hw⟩ := h.movable
    exact ⟨w, rfl, fun r' => .gap hgap (hw r')⟩

/-- A phrase could be followed by any text that starts with the same byte, and by any text at all if
it ends with a bracket. -/
theorem Derives.movable {sym : Symbol} {items : List (Bytes × Tree)} (hL : L.Local)
    (h : Derives L sym s r items) : ∃ w, w ≠ [] ∧ s = w ++ r ∧
      ∀ r', (sym.isOpen → (∀ k : Bracket, s.head? ≠ some k.opening) → r.head? = r'.head?) →
        Derives L sym (w ++ r') r' items := by
  induction h with
  | @literal kind w s r hw hr hs =>
    have hne : w ≠ [] := by
      rintro rfl
      cases hw
    subst hs
    exact ⟨w, hne, rfl, fun r' hhead => .literal hw (hL.ends r r' (hhead trivial hw.head) hr) rfl⟩
  | @number w s r hn hs =>
    subst hs
    refine ⟨w, ?_, rfl, fun r' hhead =>
      .number (hL.number w r r' (hhead trivial (hL.start _ _ hn)) hn) rfl⟩
    rintro rfl
    exact absurd (hL.shorter _ _ hn) (Nat.lt_irrefl _)
  | @string w s r hw hs =>
    refine ⟨quote :: (w ++ [quote]), by simp, by simp [hs], fun r' _ => .string hw ?_⟩
    simp
  | @empty w s r k h hs =>
    obtain ⟨v, rfl, hv⟩ := h.movable
    have hw : w = k.opening :: (v ++ [k.closing]) := by
      refine (List.append_left_injective r ?_).symm
      simpa using hs
    refine ⟨w, by simp [hw], hs, fun r' _ => ?_⟩
    have hs' : w ++ r' = k.opening :: (v ++ k.closing :: r') := by simp [hw]
    rw [hs']
    exact .empty k (hv _) hs'.symm
  | @bracket w s s₁ r items k h _ hs ih =>
    obtain ⟨v, rfl, hv⟩ := h.movable
    obtain ⟨v₁, -, rfl, hv₁⟩ := ih
    have hw : w = k.opening :: (v ++ v₁) := by
      refine (List.append_left_injective r ?_).symm
      simpa using hs
    refine ⟨w, by simp [hw], hs, fun r' _ => ?_⟩
    have hs' : w ++ r' = k.opening :: (v ++ (v₁ ++ r')) := by simp [hw]
    rw [hs']
    exact .bracket k (hv _) (hv₁ r' fun hopen => hopen.elim) hs'.symm
  | element _ ih =>
    obtain ⟨v, hne, rfl, hv⟩ := ih
    exact ⟨v, hne, rfl, fun r' hhead => .element (hv r' hhead)⟩
  | @member w s s₁ s₂ s₃ r t hw hs h₁ h₂ _ ih =>
    obtain ⟨v₁, rfl, hv₁⟩ := h₁.movable
    obtain ⟨v₂, rfl, hv₂⟩ := h₂.movable
    obtain ⟨v, -, rfl, hv⟩ := ih
    refine ⟨quote :: (w ++ quote :: (v₁ ++ colon :: (v₂ ++ v))), by simp, by simp [hs],
      fun r' hhead => ?_⟩
    have hquote : ∀ k : Bracket, s.head? ≠ some k.opening := by
      rw [hs]
      rintro (_ | _) <;> simp [quote, Bracket.opening]
    refine .member hw ?_ (hv₁ (colon :: (v₂ ++ (v ++ r')))) (hv₂ _)
      (hv r' fun hopen _ => hhead hopen hquote)
    simp
  | @last s s₁ r items k _ h ih =>
    obtain ⟨v₁, rfl, hv₁⟩ := h.movable
    obtain ⟨v, -, rfl, hv⟩ := ih
    refine ⟨v ++ (v₁ ++ [k.closing]), by simp, by simp, fun r' _ => ?_⟩
    simp only [List.append_assoc, List.cons_append, List.nil_append]
    refine .last k (hv _ fun _ _ => ?_) (hv₁ _)
    cases v₁ <;> rfl
  | @more s s₁ s₂ r items rest k _ h _ ih ihr =>
    obtain ⟨v₁, rfl, hv₁⟩ := h.movable
    obtain ⟨v, -, rfl, hv⟩ := ih
    obtain ⟨v₂, hne, rfl, hv₂⟩ := ihr
    refine ⟨v ++ (v₁ ++ v₂), by simp [hne], by simp, fun r' _ => ?_⟩
    simp only [List.append_assoc]
    refine .more k (hv _ fun _ _ => ?_) (hv₁ _) (hv₂ r' fun hopen => hopen.elim)
    cases v₁ with
    | nil =>
      cases v₂ with
      | nil => exact absurd rfl hne
      | cons => rfl
    | cons => rfl

/-! ### The tokens of RFC 8259 -/

/-- `ws` -/
def isWs (c : UInt8) : Bool := c == 0x20 || c == 0x09 || c == 0x0a || c == 0x0d

/-- `DIGIT` -/
def isDigit (c : UInt8) : Bool := decide (0x30 ≤ c ∧ c ≤ 0x39)

/-- `HEXDIG` -/
def isHexDigit (c : UInt8) : Bool :=
  isDigit c || decide (0x41 ≤ c ∧ c ≤ 0x46) || decide (0x61 ≤ c ∧ c ≤ 0x66)

/-- `1*DIGIT` -/
def IsDigits (w : Bytes) : Prop := w ≠ [] ∧ ∀ c ∈ w, isDigit c = true

/-- `int`: no leading zeros. -/
def IsInt (w : Bytes) : Prop := IsDigits w ∧ (w.head? = some 0x30 → w = [0x30])

/-- `frac` -/
inductive IsFrac : Bytes → Prop
  | none : IsFrac []
  | some {w : Bytes} (hw : IsDigits w) : IsFrac (0x2e :: w)

/-- `exp` -/
inductive IsExp : Bytes → Prop
  | none : IsExp []
  | some {e : UInt8} {sign w : Bytes} (he : e = 0x65 ∨ e = 0x45)
      (hsign : sign = [] ∨ sign = [0x2b] ∨ sign = [0x2d]) (hw : IsDigits w) :
      IsExp (e :: (sign ++ w))

/-- `number` -/
inductive IsNumber : Bytes → Prop
  | mk {minus int frac exp : Bytes} (hminus : minus = [] ∨ minus = [0x2d]) (hint : IsInt int)
      (hfrac : IsFrac frac) (hexp : IsExp exp) : IsNumber (minus ++ (int ++ (frac ++ exp)))

/-- A continuation byte of UTF-8. -/
def isTail (c : UInt8) : Bool := decide (0x80 ≤ c ∧ c ≤ 0xbf)

/-- The UTF-8 encodings of the characters beyond ASCII. -/
inductive IsMultibyte : Bytes → Prop
  | two {a b : UInt8} (ha : 0xc2 ≤ a ∧ a ≤ 0xdf) (hb : isTail b = true) : IsMultibyte [a, b]
  | three {a b c : UInt8} (ha : 0xe0 ≤ a ∧ a ≤ 0xef) (hb : isTail b = true)
      (hc : isTail c = true) (hlow : a = 0xe0 → 0xa0 ≤ b) (hhigh : a = 0xed → b ≤ 0x9f) :
      IsMultibyte [a, b, c]
  | four {a b c d : UInt8} (ha : 0xf0 ≤ a ∧ a ≤ 0xf4) (hb : isTail b = true)
      (hc : isTail c = true) (hd : isTail d = true) (hlow : a = 0xf0 → 0x90 ≤ b)
      (hhigh : a = 0xf4 → b ≤ 0x8f) : IsMultibyte [a, b, c, d]

/-- The characters that may follow a backslash, other than `u`. -/
def isEscaped (c : UInt8) : Bool :=
  c ∈ [quote, backslash, 0x2f, 0x62, 0x66, 0x6e, 0x72, 0x74]

/-- `*char` -/
inductive IsChars : Bytes → Prop
  | nil : IsChars []
  | unescaped {c : UInt8} {w : Bytes} (hc : 0x20 ≤ c ∧ c ≤ 0x7f) (hquote : c ≠ quote)
      (hback : c ≠ backslash) (hw : IsChars w) : IsChars (c :: w)
  | multibyte {u w : Bytes} (hu : IsMultibyte u) (hw : IsChars w) : IsChars (u ++ w)
  | escape {c : UInt8} {w : Bytes} (hc : isEscaped c = true) (hw : IsChars w) :
      IsChars (backslash :: c :: w)
  | unicode {a b c d : UInt8} {w : Bytes}
      (hhex : isHexDigit a = true ∧ isHexDigit b = true ∧ isHexDigit c = true ∧
        isHexDigit d = true)
      (hw : IsChars w) : IsChars (backslash :: 0x75 :: a :: b :: c :: d :: w)

/-- JSON. -/
def rfc8259 : Lexis where
  space c := isWs c = true
  string := IsChars
  number s r := ∃ w, IsNumber w ∧ s = w ++ r
  ends _ := True
  gap := False

end MangOH.JsonGrammar
