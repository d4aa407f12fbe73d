import MangOH.Json.Lookup
import MangOH.Json.Validity

/-! Which values `json_Extract` gets out of JSON texts. -/
namespace MangOH.Json

open JsonGrammar
open DataHub (JsonType)

variable {s s₁ s₂ r w rest name digits : Bytes} {k : Bracket} {sym : Symbol} {v : Tree}
  {items : List (Bytes × Tree)} {longBits size n i : Nat} {c : Component} {path : List Component}

/-! ### Phrases that the parser can pass over -/

theorem relaxed_common (h : Derives common sym s r items) (hr : sym.isOpen → Follows common r) :
    Derives relaxed sym s r items := by
  refine Derives.map (L := common) (M := relaxed) id (fun _ => isspace_of_isWs)
    (fun w hw => skippable_of_chars hw.1 hw.2) ?_ (fun _ => endsValue_of_follows) h hr
  rintro _ r ⟨w, hw, rfl⟩ hr
  exact ⟨strtod_number hw (endsValue_of_follows hr), endsValue_of_follows hr,
    startsNumber_number hw⟩

theorem cleanItems_value (h : Clean v) : CleanItems [([], v)] := by
  intro item hitem
  rw [List.mem_singleton.mp hitem]
  exact ⟨by simp, h⟩

theorem cleanItems_of_bracket {text : Bytes} (h : CleanItems [([], .bracket k text items)]) :
    CleanItems items := by
  cases (h _ List.mem_cons_self).2 with
  | bracket hnames hvalues => exact fun item hitem => ⟨hnames item hitem, hvalues item hitem⟩

theorem cleanItems_append {rest : List (Bytes × Tree)} :
    CleanItems (items ++ rest) ↔ CleanItems items ∧ CleanItems rest := by
  constructor
  · intro h
    exact ⟨fun item hitem => h item (List.mem_append_left _ hitem),
      fun item hitem => h item (List.mem_append_right _ hitem)⟩
  · rintro ⟨h, hrest⟩ item hitem
    exact (List.mem_append.mp hitem).elim (h item) (hrest item)

theorem common_of_clean (h : Derives rfc8259 sym s r items) (hclean : CleanItems items) :
    Derives common sym s r items := by
  induction h with
  | literal hw _ hs => exact .literal hw trivial hs
  | number hn hs => exact .number hn hs
  | string hw hs =>
    cases (hclean _ List.mem_cons_self).2 with
    | scalar hlast => exact .string ⟨hw, hlast rfl⟩ hs
  | empty k h hs => exact .empty k (common_spaces h) hs
  | bracket k h _ hs ih => exact .bracket k (common_spaces h) (ih (cleanItems_of_bracket hclean)) hs
  | element _ ih => exact .element (ih hclean)
  | member hw hs h₁ h₂ _ ih =>
    obtain ⟨hlast, hvalue⟩ := hclean _ List.mem_cons_self
    exact .member ⟨hw, hlast⟩ hs
      (common_spaces h₁) (common_spaces h₂) (ih (cleanItems_value hvalue))
  | last k _ h ih => exact .last k (ih hclean) (common_spaces h)
  | more k _ h _ ih ihr =>
    obtain ⟨hclean, hrest⟩ := cleanItems_append.mp hclean
    cases h with
    | comma h h₁ =>
      exact .more k (ih hclean) (.comma (common_spaces h) (common_spaces h₁)) (ihr hrest)
    | gap hg _ => exact hg.elim

theorem relaxed_of_clean (h : Derives rfc8259 sym s r items) (hclean : CleanItems items)
    (hr : sym.isOpen → Follows rfc8259 r) : Derives relaxed sym s r items :=
  relaxed_common (common_of_clean h hclean) hr

theorem skip_of_clean (h : Derives rfc8259 .value s r [([], v)]) (hclean : Clean v)
    (hr : Follows rfc8259 r) : skip s = some r :=
  scans_of_derives (relaxed_of_clean h (cleanItems_value hclean) fun _ => hr) s.length
    (Nat.le_refl _)

theorem spaces_relaxed_of_rfc8259 (h : Spaces rfc8259 s r) : Spaces relaxed s r :=
  Spaces.map (L := rfc8259) (M := relaxed) (fun _ => isspace_of_isWs) h

theorem starts_digit {c : UInt8} (hc : isDigit c = true) : Starts c := by
  refine ⟨?_, ?_, fun k => ?_⟩
  · cases hs : isspace c with
    | false => rfl
    | true => rcases isspace_cases hs with rfl | rfl | rfl | rfl | rfl | rfl <;> cases hc
  · rintro rfl
    cases hc
  · rintro rfl
    cases k <;> cases hc

theorem starts_number (hw : IsNumber w) : ∃ c u, w ++ r = c :: u ∧ Starts c := by
  obtain @⟨minus, int, frac, exp, hminus, hint, _, _⟩ := hw
  rcases hminus with rfl | rfl
  · obtain ⟨hne, hdigits⟩ := hint.1
    cases int with
    | nil => exact absurd rfl hne
    | cons d int => exact ⟨d, _, rfl, starts_digit (hdigits d List.mem_cons_self)⟩
  · exact ⟨0x2d, _, rfl, starts_of_decide (by decide)⟩

/-- How a JSON phrase starts. -/
theorem starts_of_rfc8259 (h : Derives rfc8259 sym s r items) : ∃ c u, s = c :: u ∧ Starts c := by
  induction h with
  | literal hw _ hs =>
    subst hs
    cases hw <;> exact ⟨_, _, rfl, starts_of_decide (by decide)⟩
  | number hn _ =>
    obtain ⟨w, hw, rfl⟩ := hn
    exact starts_number hw
  | string _ hs => exact ⟨_, _, hs, starts_of_decide (by decide)⟩
  | empty k => exact ⟨_, _, rfl, by cases k <;> exact starts_of_decide (by decide)⟩
  | bracket k => exact ⟨_, _, rfl, by cases k <;> exact starts_of_decide (by decide)⟩
  | element _ ih => exact ih
  | member _ hs => exact ⟨_, _, hs, starts_of_decide (by decide)⟩
  | last _ _ _ ih => exact ih
  | more _ _ _ _ ih => exact ih

theorem noSpace_of_rfc8259 (h : Derives rfc8259 sym s r items) : NoSpace s := by
  obtain ⟨c, u, rfl, hc⟩ := starts_of_rfc8259 h
  exact noSpace_cons hc.noSpace

theorem head_ne_closing (h : Derives rfc8259 sym s r items) : s.head? ≠ some k.closing := by
  obtain ⟨c, u, rfl, hc⟩ := starts_of_rfc8259 h
  simpa using hc.noClosing k

theorem rfc8259_local : rfc8259.Local where
  ends _ _ _ _ := trivial
  number w r r' _ hn := by
    obtain ⟨w', hw, heq⟩ := hn
    obtain rfl := List.append_cancel_right heq
    exact ⟨w, hw, rfl⟩
  shorter := by
    rintro _ r ⟨w, hw, rfl⟩
    obtain ⟨c, u, hc, -⟩ := starts_number (r := []) hw
    rw [List.append_nil] at hc
    simp only [hc, List.cons_append, List.length_cons, List.length_append]
    omega
  start := by
    rintro _ r ⟨w, hw, rfl⟩ k hhead
    have hstart := startsNumber_number (r := r) hw
    rw [hhead] at hstart
    cases k <;> revert hstart <;> decide

theorem length_lt_rfc8259 (h : Derives rfc8259 sym s r items) : r.length < s.length :=
  h.length_lt rfc8259_local.shorter

theorem skipWhitespace_rfc8259 (h : Spaces rfc8259 s r) (hr : NoSpace r) : skipWhitespace s = r :=
  skipWhitespace_eq (spaces_relaxed_of_rfc8259 h) hr

/-! ### Elements and members -/

theorem item_single (h : Derives rfc8259 (.item k) s r items) : ∃ item, items = [item] := by
  cases h with
  | element => exact ⟨_, rfl⟩
  | member => exact ⟨_, rfl⟩

/-- Elements or members are one, and then the closing bracket or a comma and others. -/
theorem items_cases (h : Derives rfc8259 (.items k) s r items) :
    ∃ s₁ item rest, Derives rfc8259 (.item k) s s₁ [item] ∧ items = item :: rest ∧
      Follows rfc8259 s₁ ∧
      (rest = [] ∧ Spaces rfc8259 s₁ (k.closing :: r) ∨
        ∃ s₂ s₃, Spaces rfc8259 s₁ (comma :: s₂) ∧ Spaces rfc8259 s₂ s₃ ∧
          Derives rfc8259 (.items k) s₃ r rest) := by
  cases h with
  | last _ hi h =>
    obtain ⟨item, rfl⟩ := item_single hi
    exact ⟨_, item, [], hi, rfl, h.follows (.inr ⟨k, rfl⟩), .inl ⟨rfl, h⟩⟩
  | more _ hi h hr =>
    obtain ⟨item, rfl⟩ := item_single hi
    cases h with
    | comma h h₁ =>
      exact ⟨_, item, _, hi, rfl, h.follows (.inl rfl), .inr ⟨_, _, h, h₁, hr⟩⟩
    | gap hg _ => exact hg.elim

theorem items_ne_nil (h : Derives rfc8259 (.items k) s r items) : items ≠ [] := by
  obtain ⟨_, _, _, _, rfl, _⟩ := items_cases h
  simp

theorem skipComma_comma (h : Spaces relaxed s (comma :: s₁)) (h₁ : Spaces relaxed s₁ r)
    (hr : NoSpace r) : skipComma s = .ok r := by
  unfold skipComma
  rw [skipWhitespace_eq h (noSpace_cons (by decide))]
  simp only [if_pos, skipWhitespace_eq h₁ hr]

theorem skipComma_closing (h : Spaces relaxed s (k.closing :: r)) :
    skipComma s = .error .formatError := by
  unfold skipComma
  rw [skipWhitespace_eq h (noSpace_cons (closing_noSpace k))]
  have hne : k.closing ≠ comma := by cases k <;> decide
  simp only [if_neg hne]

/-- The parser is at a value within a text. -/
def AtValue (s : Bytes) (v : Tree) (r : Bytes) : Prop :=
  Derives rfc8259 .value s r [([], v)] ∧ Follows rfc8259 r

/-- The parser comes to the first of these elements or members, or takes the text for malformed if
there is none. -/
def Arrives (result : Except Failure Bytes) (s : Bytes) : List (Bytes × Tree) → Prop
  | item :: _ => ∃ s₁ r₁, result = .ok s₁ ∧ AtValue s₁ item.2 r₁ ∧ s₁.length ≤ s.length
  | [] => result = .error .formatError

theorem Arrives.mono {result : Except Failure Bytes} (h : Arrives result s₁ items)
    (hle : s₁.length ≤ s.length) : Arrives result s items := by
  cases items with
  | nil => exact h
  | cons item rest =>
    obtain ⟨s₂, r₂, hresult, hat, hle₂⟩ := h
    exact ⟨s₂, r₂, hresult, hat, Nat.le_trans hle₂ hle⟩

theorem skipElements_arrives (h : Derives rfc8259 (.items .array) s r items)
    (hclean : CleanItems (items.take i)) : Arrives (skipElements i s) s (items.drop i) := by
  induction i generalizing s items with
  | zero =>
    obtain ⟨s₁, item, rest, hi, rfl, hf, _⟩ := items_cases h
    cases hi with
    | element hv => exact ⟨s, s₁, rfl, ⟨hv, hf⟩, Nat.le_refl _⟩
  | succ i ih =>
    obtain ⟨s₁, item, rest, hi, rfl, hf, hr⟩ := items_cases h
    have hhead := head_ne_closing (k := .array) h
    have hlt := length_lt_rfc8259 hi
    cases hi with
    | element hv =>
      have hskip := skip_of_clean hv (hclean _ List.mem_cons_self).2 hf
      rw [List.drop_succ_cons]
      simp only [skipElements, if_neg hhead, hskip]
      rcases hr with ⟨rfl, hclosing⟩ | ⟨s₂, s₃, h₁, h₂, hrest⟩
      · rw [skipComma_closing (spaces_relaxed_of_rfc8259 hclosing), List.drop_nil]
        rfl
      · rw [skipComma_comma (spaces_relaxed_of_rfc8259 h₁) (spaces_relaxed_of_rfc8259 h₂)
          (noSpace_of_rfc8259 hrest)]
        have hle₁ := h₁.length_le
        have hle₂ := h₂.length_le
        simp only [List.length_cons] at hle₁
        exact (ih hrest fun item hitem => hclean item (List.mem_cons_of_mem _ hitem)).mono
          (by omega)

/-- A name that is looked for is found where it is the whole name of a member. -/
theorem same_name_of_starts (hname : ∀ c ∈ name, isalnum c = true) (hw : Skippable w)
    (h : name ++ [quote] <+: w ++ quote :: r) : w = name := by
  induction name generalizing w with
  | nil =>
    cases hw with
    | nil => rfl
    | escaped => simp [backslash, quote] at h
    | other hc =>
      rw [List.nil_append, List.cons_append, List.cons_prefix_cons] at h
      exact absurd h.1.symm hc
  | cons a name ih =>
    obtain ⟨ha, hname⟩ := List.forall_mem_cons.mp hname
    cases hw with
    | nil =>
      rw [List.cons_append, List.nil_append, List.cons_prefix_cons] at h
      rw [h.1] at ha
      cases ha
    | escaped =>
      rw [List.cons_append, List.cons_append, List.cons_prefix_cons] at h
      rw [h.1] at ha
      cases ha
    | other hc hback hw =>
      rw [List.cons_append, List.cons_append, List.cons_prefix_cons] at h
      rw [h.1, ih hname hw h.2]

theorem findMember_arrives (h : Derives rfc8259 (.items .object) s r items)
    (hname : ∀ c ∈ name, isalnum c = true)
    (hclean : CleanItems (items.takeWhile fun item => !asWritten item.1 name))
    (hn : s.length < n) :
    Arrives (findMember name n s) s (items.dropWhile fun item => !asWritten item.1 name) := by
  induction n generalizing s items with
  | zero => omega
  | succ n ih =>
    obtain ⟨s₁, item, rest, hi, rfl, hf, hr⟩ := items_cases h
    have hlt := length_lt_rfc8259 hi
    cases hi with
    | @member w _ s₂ s₃ s₄ _ t hw hs h₁ h₂ hv =>
      subst hs
      have hle₁ := h₁.length_le
      have hle₂ := h₂.length_le
      simp only [List.length_cons, List.length_append] at hle₁ hlt hn
      rw [findMember, List.head?_cons, if_pos rfl, List.tail_cons]
      by_cases hsame : w = name
      · subst hsame
        have hpre : (w ++ [quote]).isPrefixOf (w ++ quote :: s₂) = true :=
          List.isPrefixOf_iff_prefix.mpr ⟨s₂, by simp⟩
        have hdrop : (quote :: (w ++ quote :: s₂)).drop (w.length + 2) = s₂ := by
          rw [List.drop_succ_cons, List.drop_append]
          simp
        rw [if_pos hpre, hdrop, List.dropWhile_cons, if_neg (by simp [asWritten])]
        refine ⟨s₄, s₁, ?_, ⟨hv, hf⟩, ?_⟩
        · rw [skipColon, skipWhitespace_rfc8259 h₁ (noSpace_cons (by decide))]
          simp only [if_pos, skipWhitespace_rfc8259 h₂ (noSpace_of_rfc8259 hv)]
        · simp only [List.length_cons, List.length_append]
          omega
      · have hother : (!asWritten w name) = true := by simpa [asWritten] using hsame
        rw [List.takeWhile_cons, if_pos hother] at hclean
        obtain ⟨hitem, hclean⟩ := List.forall_mem_cons.mp hclean
        have hskippable := skippable_of_chars hw hitem.1
        have hpre : ¬ (name ++ [quote]).isPrefixOf (w ++ quote :: s₂) = true := fun hpre =>
          hsame (same_name_of_starts hname hskippable (List.isPrefixOf_iff_prefix.mp hpre))
        have hskip : skipMember skip (quote :: (w ++ quote :: s₂)) = some s₁ := by
          rw [skipMember, skipString_eq hskippable]
          simp only [Option.bind_eq_bind, Option.bind_some]
          rw [skipWhitespace_rfc8259 h₁ (noSpace_cons (by decide))]
          simp only [if_pos, skipWhitespace_rfc8259 h₂ (noSpace_of_rfc8259 hv)]
          exact skip_of_clean hv hitem.2 hf
        rw [if_neg hpre, hskip, List.dropWhile_cons, if_pos hother]
        rcases hr with ⟨rfl, hclosing⟩ | ⟨s₅, s₆, h₃, h₄, hrest⟩
        · simp only [skipComma_closing (spaces_relaxed_of_rfc8259 hclosing)]
          rfl
        · simp only [skipComma_comma (spaces_relaxed_of_rfc8259 h₃) (spaces_relaxed_of_rfc8259 h₄)
            (noSpace_of_rfc8259 hrest)]
          have hle₃ := h₃.length_le
          have hle₄ := h₄.length_le
          simp only [List.length_cons] at hle₃
          refine (ih hrest hclean (by omega)).mono ?_
          simp only [List.length_cons, List.length_append]
          omega

/-! ### One component -/

/-- `GoToMember` or `GoToElement` -/
def Component.goTo : Component → Bytes → Except Failure Bytes
  | .name w _ => goToMember w
  | .index digits _ => goToElement (decimal digits)

theorem bracket_cases {L : Lexis} {text : Bytes}
    (h : Derives L .value s r [([], .bracket k text items)]) :
    ∃ s₁, s = k.opening :: s₁ ∧ k.opening :: s₁ = text ++ r ∧
      (items = [] ∧ Spaces L s₁ (k.closing :: r) ∨
        ∃ s₂, Spaces L s₁ s₂ ∧ Derives L (.items k) s₂ r items) := by
  cases h with
  | empty _ h hs => exact ⟨_, rfl, hs, .inl ⟨rfl, h⟩⟩
  | bracket _ h hi hs => exact ⟨_, rfl, hs, .inr ⟨_, h, hi⟩⟩

theorem goTo_wrong (h : s.head? ≠ some c.kind.opening) : c.goTo s = .error .formatError := by
  cases s with
  | nil => cases c <;> rfl
  | cons d s =>
    have hd : d ≠ c.kind.opening := by simpa using h
    cases c with
    | name => exact if_neg hd
    | index => exact if_neg hd

theorem goTo_items (h : Spaces rfc8259 s s₁)
    (hi : Derives rfc8259 (.items c.kind) s₁ r items) (hclean : CleanItems (c.before items)) :
    Arrives (c.goTo (c.kind.opening :: s)) (c.kind.opening :: s) (c.select asWritten items) := by
  have hle := h.length_le
  have hskip := skipWhitespace_rfc8259 h (noSpace_of_rfc8259 hi)
  cases c with
  | name w hw =>
    have harrives := findMember_arrives (n := s₁.length + 1) hi hw.2 hclean (by omega)
    show Arrives (goToMember w (Bracket.object.opening :: s)) _ _
    rw [goToMember, if_pos rfl, hskip]
    exact harrives.mono (by simp only [List.length_cons]; omega)
  | index digits hdigits =>
    have harrives := skipElements_arrives hi hclean
    show Arrives (goToElement (decimal digits) (Bracket.array.opening :: s)) _ _
    rw [goToElement, if_pos rfl, hskip]
    exact harrives.mono (by simp only [List.length_cons]; omega)

theorem goTo_empty (h : Spaces rfc8259 s (c.kind.closing :: r)) :
    c.goTo (c.kind.opening :: s) =
      if c.missesEmpty then .error .notFound else .ok (Bracket.array.closing :: r) := by
  have hskip := skipWhitespace_rfc8259 h (noSpace_cons (closing_noSpace _))
  cases c with
  | name w hw =>
    show goToMember w (Bracket.object.opening :: s) = _
    rw [goToMember, if_pos rfl, hskip]
    rfl
  | index digits hdigits =>
    show goToElement (decimal digits) (Bracket.array.opening :: s) = _
    rw [goToElement, if_pos rfl, hskip]
    by_cases hi : decimal digits = 0
    · rw [if_neg (by simp [Component.missesEmpty, hi]), hi]
      rfl
    · obtain ⟨i, hi'⟩ := Nat.exists_eq_succ_of_ne_zero hi
      rw [if_pos (by simp [Component.missesEmpty, hi]), hi']
      rfl

/-! ### The specifier -/

theorem notAhead_specAfter (path : List Component) : NotAhead isalnum (specAfter path) := by
  cases path with
  | nil =>
    intro c w h
    cases h
  | cons c path => cases c <;> exact notAhead_cons (by decide)

theorem takeWhile_append {p : UInt8 → Bool} (hw : ∀ c ∈ w, p c = true) (hr : NotAhead p r) :
    (w ++ r).takeWhile p = w := by
  rw [List.takeWhile_append_of_pos hw]
  cases r with
  | nil => simp
  | cons c r => rw [List.takeWhile_cons, if_neg (by simp [hr c r rfl]), List.append_nil]

theorem getMemberName_eq (hname : ∀ c ∈ name, isalnum c = true) (hr : NotAhead isalnum r) :
    getMemberName memberNameBytes (name ++ r) =
      if name.length < memberNameBytes then some (name, r) else none := by
  simp only [getMemberName, takeWhile_append hname hr, dropWhile_append hname hr]

theorem strtoul_eq (hdigits : IsDigits digits) (hr : NotAhead isDigit r) :
    strtoul longBits (digits ++ r) =
      some (if 2 ^ longBits ≤ decimal digits then 2 ^ longBits - 1 else decimal digits, r) := by
  have hspace : (digits ++ r).dropWhile isspace = digits ++ r := by
    obtain ⟨hne, hall⟩ := hdigits
    cases digits with
    | nil => exact absurd rfl hne
    | cons d digits =>
      have hd := (starts_digit (hall d List.mem_cons_self)).noSpace
      rw [List.cons_append, List.dropWhile_cons, if_neg (by simp [hd])]
  have hminus : (digits ++ r).head? ≠ some 0x2d := by
    obtain ⟨hne, hall⟩ := hdigits
    cases digits with
    | nil => exact absurd rfl hne
    | cons d digits =>
      rw [List.cons_append, List.head?_cons]
      rintro h
      cases h
      exact absurd (hall _ List.mem_cons_self) (by decide)
  unfold strtoul
  simp only [hspace, dropSign_digits hdigits, takeWhile_append hdigits.2 hr,
    dropWhile_append hdigits.2 hr, if_neg hdigits.1, if_neg hminus]

theorem getIndex_eq (longBits : Nat) (r : Bytes) (hdigits : IsDigits digits) :
    getIndex longBits (digits ++ Bracket.array.closing :: r) =
      if decimal digits < 2 ^ longBits / 2 then some (decimal digits, r) else none := by
  have hpos : 0 < 2 ^ longBits := Nat.pow_pos (by decide)
  have hclosing : NotAhead isDigit (Bracket.array.closing :: r) := notAhead_cons (by decide)
  simp only [getIndex, strtoul_eq hdigits hclosing, Option.bind_eq_bind, Option.bind_some,
    List.head?_cons, List.tail_cons, and_true]
  by_cases hover : 2 ^ longBits ≤ decimal digits
  · rw [if_pos hover, if_neg (by omega), if_neg (by omega)]
  · rw [if_neg hover]

/-- A component is split off the specifier and handled, wherever it stands. -/
theorem findFrom_component {u : Bytes} (hu : u = c.text ∨ u = c.textAfter) (hs : s ≠ []) :
    findFrom longBits (n + 1) (u ++ specAfter path) s =
      if c.fits longBits then c.goTo s >>= findFrom longBits n (specAfter path)
      else .error .badParameter := by
  cases c with
  | index digits hdigits =>
    have hu : u = Bracket.array.opening :: (digits ++ [Bracket.array.closing]) := hu.elim id id
    have hindex := getIndex_eq longBits (specAfter path) hdigits
    subst hu
    simp only [List.cons_append, List.append_assoc, List.nil_append, findFrom, if_neg hs, if_pos,
      hindex]
    by_cases hfits : decimal digits < 2 ^ longBits / 2
    · rw [if_pos hfits, if_pos (by simpa [Component.fits] using hfits)]
      rfl
    · rw [if_neg hfits, if_neg (by simpa [Component.fits] using hfits)]
  | name w hw =>
    obtain ⟨hne, hall⟩ := hw
    cases w with
    | nil => exact absurd rfl hne
    | cons a w =>
      have ha := hall a List.mem_cons_self
      have hopening : a ≠ Bracket.array.opening := by
        rintro rfl
        cases ha
      have hpoint : a ≠ 0x2e := by
        rintro rfl
        cases ha
      have hstart : findFrom longBits (n + 1) (u ++ specAfter path) s =
          if isalpha a = true then
            if (a :: w).length < memberNameBytes then
              goToMember (a :: w) s >>= findFrom longBits n (specAfter path)
            else .error .badParameter
          else .error .badParameter := by
        have hget := getMemberName_eq hall (notAhead_specAfter path)
        rcases hu with rfl | rfl
        · show findFrom longBits (n + 1) (a :: (w ++ specAfter path)) s = _
          simp only [findFrom, if_neg hs, if_neg hopening, if_neg hpoint, List.head?_cons,
            Option.any_some]
          rw [← List.cons_append, hget]
          split_ifs <;> rfl
        · have hdot : (0x2e : UInt8) ≠ Bracket.array.opening := by decide +kernel
          show findFrom longBits (n + 1) (0x2e :: (a :: (w ++ specAfter path))) s = _
          simp only [findFrom, if_neg hs, if_neg hdot, if_pos, List.head?_cons, Option.any_some]
          rw [← List.cons_append, hget]
          split_ifs <;> rfl
      rw [hstart]
      have hfits : (Component.name (a :: w) ⟨hne, hall⟩).fits longBits = true ↔
          isalpha a = true ∧ (a :: w).length < memberNameBytes := by
        simp only [Component.fits, List.head?_cons, Option.any_some, Bool.and_eq_true,
          decide_eq_true_eq]
      by_cases halpha : isalpha a = true
      · by_cases hlength : (a :: w).length < memberNameBytes
        · rw [if_pos halpha, if_pos hlength, if_pos (hfits.mpr ⟨halpha, hlength⟩)]
          rfl
        · rw [if_pos halpha, if_neg hlength, if_neg fun h => hlength (hfits.mp h).2]
      · rw [if_neg halpha, if_neg fun h => halpha (hfits.mp h).1]

theorem length_text_pos {u : Bytes} (hu : u = c.text ∨ u = c.textAfter) : 0 < u.length := by
  cases c with
  | name w hw =>
    rcases hu with rfl | rfl
    · exact List.length_pos_of_ne_nil hw.1
    · exact Nat.succ_pos _
  | index => rcases hu with rfl | rfl <;> exact Nat.succ_pos _

/-! ### The way along a path -/

/-- The parser reports an error other than a missing value, or stops at the end of an array. -/
def Stuck (result : Except Failure Bytes) : Prop :=
  (∃ e, e ≠ .notFound ∧ result = .error e) ∨ ∃ r, result = .ok (Bracket.array.closing :: r)

theorem stuck_error {e : Failure} (he : e ≠ .notFound) : Stuck (.error e) := .inl ⟨e, he, rfl⟩

theorem findFrom_wrong {u : Bytes} (hu : u = c.text ∨ u = c.textAfter) (hs : s ≠ [])
    (hn : (u ++ specAfter path).length < n)
    (h : c.fits longBits = true → s.head? ≠ some c.kind.opening) :
    ∃ e, e ≠ .notFound ∧ findFrom longBits n (u ++ specAfter path) s = .error e := by
  obtain ⟨n, rfl⟩ := Nat.exists_eq_add_one_of_ne_zero (n := n) (by omega)
  rw [findFrom_component hu hs]
  split
  · next hfits =>
    rw [goTo_wrong (h hfits)]
    exact ⟨.formatError, by simp, rfl⟩
  · exact ⟨.badParameter, by simp, rfl⟩

theorem findFrom_closing (hn : (specAfter path).length < n) :
    Stuck (findFrom longBits n (specAfter path) (Bracket.array.closing :: r)) := by
  cases path with
  | nil =>
    obtain ⟨n, rfl⟩ := Nat.exists_eq_add_one_of_ne_zero (n := n) (by omega)
    exact .inr ⟨r, rfl⟩
  | cons c path =>
    refine .inl (findFrom_wrong (.inr rfl) (by simp) hn fun _ => ?_)
    cases c <;> simp [Component.kind, Bracket.opening, Bracket.closing]

/-- What the parser finds is what is at the end of the walk. -/
def Ends (result : Except Failure Bytes) (s : Bytes) : Walk → Prop
  | .found v => ∃ s₁ r₁, result = .ok s₁ ∧ AtValue s₁ v r₁ ∧ Clean v ∧ s₁.length ≤ s.length
  | .absent => result = .error .notFound
  | .wrong => Stuck result

theorem Ends.mono {result : Except Failure Bytes} {end₁ : Walk} (h : Ends result s₁ end₁)
    (hle : s₁.length ≤ s.length) : Ends result s end₁ := by
  cases end₁ with
  | found v =>
    obtain ⟨s₂, r₂, hresult, hat, hclean, hle₂⟩ := h
    exact ⟨s₂, r₂, hresult, hat, hclean, Nat.le_trans hle₂ hle⟩
  | absent => exact h
  | wrong => exact h

theorem findFrom_ends {t : Tree} (hat : AtValue s t r) (hclean : CleanWay longBits path t)
    {u : Bytes} (hu : u = spec path ∨ u = specAfter path) (hn : u.length < n) :
    Ends (findFrom longBits n u s) s (walk longBits path t) := by
  induction path generalizing s t r u n with
  | nil =>
    have hnil : u = [] := hu.elim id id
    obtain ⟨n, rfl⟩ := Nat.exists_eq_add_one_of_ne_zero (n := n) (by omega)
    have hs : s ≠ [] := by
      obtain ⟨d, w, rfl, _⟩ := starts_of_rfc8259 hat.1
      simp
    subst hnil
    exact ⟨s, r, if_neg hs, hat, hclean, Nat.le_refl _⟩
  | cons c path ih =>
    obtain ⟨u, hc, rfl⟩ : ∃ v, (v = c.text ∨ v = c.textAfter) ∧ u = v ++ specAfter path := by
      rcases hu with rfl | rfl
      · exact ⟨_, .inl rfl, rfl⟩
      · exact ⟨_, .inr rfl, rfl⟩
    have hs : s ≠ [] := by
      obtain ⟨d, w, rfl, _⟩ := starts_of_rfc8259 hat.1
      simp
    cases t with
    | scalar kind text =>
      exact .inl (findFrom_wrong hc hs hn fun _ => hat.1.head_scalar rfc8259_local _)
    | bracket k text items =>
      obtain ⟨s₁, rfl, _, hbracket⟩ := bracket_cases hat.1
      by_cases hok : c.fits longBits = true ∧ c.kind = k
      · obtain ⟨hfits, rfl⟩ := hok
        obtain ⟨hbefore, hafter⟩ := hclean hfits rfl
        have hpos := length_text_pos hc
        rw [List.length_append] at hn
        obtain ⟨n, rfl⟩ := Nat.exists_eq_add_one_of_ne_zero (n := n) (by omega)
        rw [findFrom_component hc hs, if_pos hfits]
        rcases hbracket with ⟨rfl, hclosing⟩ | ⟨s₂, hspaces, hitems⟩
        · have hselect : c.select asWritten [] = [] := by cases c <;> simp [Component.select]
          simp only [walk, hfits, true_and, if_pos, hselect, goTo_empty hclosing]
          by_cases hmisses : c.missesEmpty = true
          · simp only [if_pos hmisses]
            rfl
          · simp only [if_neg hmisses]
            exact findFrom_closing (by omega)
        · have hgo := goTo_items hspaces hitems hbefore
          have hne := items_ne_nil hitems
          simp only [walk, hfits, true_and, if_pos]
          cases hselect : c.select asWritten items with
          | nil =>
            rw [hselect] at hgo
            have hgo : c.goTo (c.kind.opening :: s₁) = .error .formatError := hgo
            simp only [if_neg (fun h : items = [] ∧ c.missesEmpty = true => hne h.1), hgo]
            exact stuck_error (e := .formatError) (by decide)
          | cons item rest =>
            rw [hselect] at hgo
            obtain ⟨s₃, r₃, hgo, hat₃, hle⟩ := hgo
            rw [hgo]
            exact (ih hat₃ (hafter item rest hselect) (.inr rfl) (by omega)).mono hle
      · have hwalk : walk longBits (c :: path) (.bracket k text items) = .wrong := if_neg hok
        rw [hwalk]
        refine .inl (findFrom_wrong hc hs hn fun hfits => ?_)
        have hkind : c.kind ≠ k := fun hk => hok ⟨hfits, hk⟩
        revert hkind
        cases c.kind <;> cases k <;> simp [Bracket.opening]

/-! ### The result -/

theorem textUpTo_append (w r : Bytes) : textUpTo (w ++ r) r = w := by
  unfold textUpTo
  rw [List.length_append, Nat.add_sub_cancel, List.take_left']
  rfl

theorem copyResult_ok {kind : JsonType} {text : Bytes} (h : text.length < size) :
    copyResult size kind text = .ok (kind, text) :=
  if_neg (by omega)

theorem jsonExtract_error {u : Bytes} {e : Failure} (h : find longBits s u = .error e) :
    jsonExtract longBits size s u = .error e := by
  simp only [jsonExtract, h]
  rfl

theorem jsonExtract_closing {u : Bytes}
    (h : find longBits s u = .ok (Bracket.array.closing :: r)) :
    jsonExtract longBits size s u = .error .formatError := by
  have hnumber : skipNumber (Bracket.array.closing :: r) = none := by
    unfold skipNumber
    rw [strtod_eq_none (.inr ⟨.array, rfl⟩)]
  simp only [jsonExtract, h, bind, Except.bind, hnumber]
  rfl

theorem jsonExtract_bracket {u text : Bytes} (items : List (Bytes × Tree))
    (h : find longBits s u = .ok (k.opening :: s₁))
    (hskip : skip (k.opening :: s₁) = some r) (hs : k.opening :: s₁ = text ++ r) :
    jsonExtract longBits size s u =
      copyResult size (extracted (.bracket k text items)).1 text := by
  have htext : textUpTo (k.opening :: s₁) r = text := by rw [hs, textUpTo_append]
  cases k with
  | array =>
    have hne : Bracket.array.opening ≠ Bracket.object.opening := by decide
    simp only [jsonExtract, h, bind, Except.bind, if_neg hne, if_pos, hskip, htext]
    rfl
  | object =>
    simp only [jsonExtract, h, bind, Except.bind, if_pos, hskip, htext]
    rfl

/-- The result for a value is its type and its text. -/
theorem jsonExtract_derives {u : Bytes} (h : find longBits s u = .ok s₁)
    (hv : Derives relaxed .value s₁ r [([], v)]) :
    jsonExtract longBits size s u = copyResult size (extracted v).1 (extracted v).2 := by
  have hskip : skip s₁ = some r := scans_of_derives hv s₁.length (Nat.le_refl _)
  cases hv with
  | literal hw _ hs =>
    subst hs
    cases hw
    · simp [jsonExtract, h, bind, Except.bind, Bracket.opening, quote, trueText, extracted]
    · simp [jsonExtract, h, bind, Except.bind, Bracket.opening, quote, falseText, extracted]
    · simp [jsonExtract, h, bind, Except.bind, Bracket.opening, quote, nullText, extracted]
  | @number w _ _ hn hs =>
    obtain ⟨hnum, hends, hstart⟩ := hn
    have hnumber : skipNumber s₁ = some r := skipNumber_iff.mpr ⟨hnum, hends⟩
    have htext : textUpTo s₁ r = w := by rw [hs, textUpTo_append]
    cases s₁ with
    | nil => cases hstart
    | cons c s₂ =>
      simp only [List.head?_cons, Option.any_some, startsNumber, Bool.and_eq_true,
        Bool.not_eq_true', decide_eq_false_iff_not, List.mem_cons, List.not_mem_nil, or_false,
        not_or] at hstart
      obtain ⟨_, hobject, harray, hquote, ht, hf, hn⟩ := hstart
      simp only [jsonExtract, h, bind, Except.bind, if_neg hobject, if_neg harray, if_neg hquote,
        if_neg ht, if_neg hf, if_neg hn, hnumber, htext]
      rfl
  | string hw hs =>
    subst hs
    have hobject : quote ≠ Bracket.object.opening := by decide
    have harray : quote ≠ Bracket.array.opening := by decide
    simp only [jsonExtract, h, bind, Except.bind, if_neg hobject, if_neg harray, if_pos,
      skipString_eq hw, textUpTo_append]
    rfl
  | empty k _ hs =>
    rw [jsonExtract_bracket [] h hskip hs]
    cases k <;> rfl
  | @bracket _ _ _ _ items k _ _ hs =>
    rw [jsonExtract_bracket items h hskip hs]
    cases k <;> rfl

theorem length_extracted (hv : Derives relaxed .value s r [([], v)]) :
    (extracted v).2.length ≤ s.length := by
  cases hv with
  | literal hw _ hs =>
    subst hs
    cases hw <;> simp [extracted]
  | number _ hs => simp [extracted, hs]
  | string _ hs =>
    subst hs
    simp only [extracted, List.length_cons, List.length_append]
    omega
  | empty k _ hs => cases k <;> simp [extracted, hs]
  | bracket k _ _ hs => cases k <;> simp [extracted, hs]

theorem jsonExtract_value {u : Bytes} (h : find longBits s u = .ok s₁) (hat : AtValue s₁ v r)
    (hclean : Clean v) (hle : s₁.length < size) :
    jsonExtract longBits size s u = .ok (extracted v) := by
  have hv := relaxed_of_clean hat.1 (cleanItems_value hclean) fun _ => hat.2
  rw [jsonExtract_derives h hv, copyResult_ok (Nat.lt_of_le_of_lt (length_extracted hv) hle)]

variable {t : Tree} {result : Except Failure Bytes}

theorem reference_ne {e : Failure} (he : e ≠ .notFound) : .error e ≠ reference path t := by
  unfold reference
  cases lookup path t with
  | some v => simp
  | none => simpa using he

theorem jsonExtract_stuck {u : Bytes} (h : Stuck (find longBits s u)) :
    jsonExtract longBits size s u ≠ reference path t := by
  rcases h with ⟨e, he, h⟩ | ⟨r, h⟩
  · rw [jsonExtract_error h]
    exact reference_ne he
  · rw [jsonExtract_closing h]
    exact reference_ne (by decide)

/-- White space before a number is taken for a part of it. -/
theorem skipNumber_space {d : UInt8} (h : skipNumber (d :: s) = some r) :
    ∃ w, textUpTo (d :: s) r = d :: w := by
  obtain ⟨⟨w, hs, _⟩, hlt⟩ := plain_strtod (skipNumber_iff.mp h).1
  cases w with
  | nil =>
    rw [List.nil_append] at hs
    rw [hs] at hlt
    exact absurd hlt (Nat.lt_irrefl _)
  | cons d' w =>
    obtain ⟨rfl, _⟩ := List.cons.inj hs
    exact ⟨w, by rw [hs, textUpTo_append]⟩

theorem extracted_number {text : Bytes} (h : Derives rfc8259 .value s r [([], t)])
    (ht : extracted t = (.number, text)) : NoSpace text := by
  cases h with
  | literal hw => cases hw <;> cases ht
  | number hn hs =>
    obtain ⟨w, hw, hs'⟩ := hn
    obtain rfl := List.append_cancel_right (hs.symm.trans hs')
    cases ht
    obtain ⟨c, u, hc, hstarts⟩ := starts_number (r := []) hw
    rw [List.append_nil] at hc
    exact hc ▸ noSpace_cons hstarts.noSpace
  | string => cases ht
  | empty k => cases k <;> cases ht
  | bracket k => cases k <;> cases ht

/-- A text that does not start with a value is never handled as it should be. -/
theorem jsonExtract_space {d : UInt8} (hd : isWs d = true) (ht : Text rfc8259 (d :: s) t) :
    jsonExtract longBits size (d :: s) (spec path) ≠ reference path t := by
  have hspace := isspace_of_isWs hd
  have hhead : ∀ k : Bracket, d ≠ k.opening := by
    rintro k rfl
    cases k <;> cases hd
  cases path with
  | cons c path =>
    refine jsonExtract_stuck (.inl ?_)
    exact findFrom_wrong (.inl rfl) (by simp) (Nat.lt_succ_self _)
      fun _ => by simpa using hhead c.kind
  | nil =>
    have hfind : find longBits (d :: s) (spec []) = .ok (d :: s) := rfl
    have hne : d ≠ quote ∧ d ≠ 0x74 ∧ d ≠ 0x66 ∧ d ≠ 0x6e := by
      refine ⟨?_, ?_, ?_, ?_⟩ <;>
      · rintro rfl
        cases hd
    simp only [jsonExtract, hfind, bind, Except.bind, if_neg (hhead .object),
      if_neg (hhead .array), if_neg hne.1, if_neg hne.2.1, if_neg hne.2.2.1, if_neg hne.2.2.2]
    cases hskip : skipNumber (d :: s) with
    | none => exact reference_ne (by decide)
    | some r =>
      obtain ⟨w, hw⟩ := skipNumber_space hskip
      obtain ⟨s₁, r₁, _, hv, _⟩ := ht
      simp only [hw, copyResult]
      split
      · exact reference_ne (by decide)
      · intro h
        have htext := extracted_number hv (Except.ok.inj h).symm d w rfl
        rw [htext] at hspace
        cases hspace

/-- `json_Extract` does what it should for a text whose strings do not mislead it just if the text
starts with its value and the parser gets to where the path leads. -/
theorem extract_iff (ht : Text rfc8259 s t) (hclean : CleanWay longBits path t)
    (hsize : s.length < size) :
    jsonExtract longBits size s (spec path) = reference path t ↔
      s.head?.any isWs = false ∧ WalkRight longBits path t := by
  cases hhead : s.head?.any isWs with
  | true =>
    cases s with
    | nil => cases hhead
    | cons d s => simpa using jsonExtract_space hhead ht
  | false =>
    obtain ⟨s₁, r, hs, hv, hr⟩ := ht
    obtain rfl : s = s₁ := by
      cases hs with
      | nil => rfl
      | cons hc => exact absurd (hc.symm.trans hhead) (by decide)
    have hends := findFrom_ends ⟨hv, hr.follows_nil⟩ hclean (.inl rfl)
      (Nat.lt_succ_self (spec path).length)
    rw [WalkRight]
    cases hwalk : walk longBits path t with
    | found v =>
      rw [hwalk] at hends
      obtain ⟨s₁, r₁, hfind, hat, hvalue, hle⟩ := hends
      rw [jsonExtract_value hfind hat hvalue (by omega), reference]
      cases lookup path t with
      | none => simp
      | some v' => simp [eq_comm]
    | absent =>
      rw [hwalk] at hends
      rw [jsonExtract_error hends, reference]
      cases lookup path t with
      | none => simp
      | some v' => simp
    | wrong =>
      rw [hwalk] at hends
      simpa using jsonExtract_stuck hends

/-- `[1]` -/
def oneText : Bytes := [Bracket.array.opening, 0x31, Bracket.array.closing]

def oneTree : Tree := .bracket .array oneText [([], .scalar .number [0x31])]

theorem text_oneText : Text rfc8259 oneText oneTree := by
  have hdigits : IsDigits [0x31] := ⟨by simp, by decide +kernel⟩
  have hnumber : IsNumber [0x31] :=
    @IsNumber.mk [] [0x31] [] [] (.inl rfl) ⟨hdigits, by simp⟩ .none .none
  have hvalue : Derives rfc8259 .value [0x31, Bracket.array.closing] [Bracket.array.closing]
      [([], .scalar .number [0x31])] := .number (w := [0x31]) ⟨_, hnumber, rfl⟩ rfl
  exact ⟨_, [], .nil _, .bracket .array (.nil _) (.last .array (.element hvalue) (.nil _)) rfl,
    .nil _⟩

def indexOne : Component := .index [0x31] ⟨by simp, by decide +kernel⟩

theorem extract_iff_oneText :
    jsonExtract 32 4 oneText (spec [indexOne]) = reference [indexOne] oneTree ↔
      oneText.head?.any isWs = false ∧ WalkRight 32 [indexOne] oneTree := by
  refine extract_iff text_oneText (fun _ _ => ⟨?_, ?_⟩) (by decide)
  · intro item hitem
    rw [List.mem_singleton.mp hitem]
    exact ⟨by simp, .scalar (by simp)⟩
  · intro item rest h
    cases h

/-- An index beyond the end of an array that is not empty makes a format error. -/
theorem extract_fails :
    ¬ ∀ (s : Bytes) (t : Tree) (path : List Component) (size : Nat), Text rfc8259 s t →
      s.length < size → jsonExtract 32 size s (spec path) = reference path t := by
  intro h
  have heq := h oneText oneTree [indexOne] 4 text_oneText (by decide)
  have hcode : jsonExtract 32 4 oneText (spec [indexOne]) = .error .formatError := by decide
  have hreference : reference [indexOne] oneTree = .error .notFound := rfl
  rw [hcode, hreference] at heq
  cases heq

end MangOH.Json
