import MangOH.Json.Numbers

/-! Which texts `json_IsValid` judges as RFC 8259 does. -/
namespace MangOH.Json

open JsonGrammar

variable {s s₁ r w u : Bytes} {c : UInt8} {k : Bracket} {items : List (Bytes × Tree)}

/-- The tokens that JSON and the scanner have in common: the strings of JSON, less those that end
in an escaped backslash, and otherwise those of JSON. -/
def common : Lexis :=
  { rfc8259 with string := fun w => IsChars w ∧ w.getLast? ≠ some backslash }

/-! ### Common texts are in both languages -/

theorem isspace_of_isWs (h : isWs c = true) : isspace c = true := by
  simp only [isWs, Bool.or_eq_true, beq_iff_eq] at h
  rcases h with ((rfl | rfl) | rfl) | rfl <;> rfl

theorem head_chars (hw : IsChars w) : w.head? ≠ some quote := by
  cases hw with
  | nil => simp
  | unescaped _ hquote => simpa using hquote
  | multibyte hu =>
    cases hu with
    | two ha =>
      rw [List.cons_append, List.head?_cons]
      rintro h
      cases h
      exact absurd ha.1 (by decide)
    | three ha =>
      rw [List.cons_append, List.head?_cons]
      rintro h
      cases h
      exact absurd ha.1 (by decide)
    | four ha =>
      rw [List.cons_append, List.head?_cons]
      rintro h
      cases h
      exact absurd ha.1 (by decide)
  | escape => simp [backslash, quote]
  | unicode => simp [backslash, quote]

/-- Bytes that are neither quotes nor backslashes can stand anywhere in a string. -/
theorem Skippable.plain (hu : quote ∉ u ∧ backslash ∉ u) (hw : Skippable w) :
    Skippable (u ++ w) := by
  induction u with
  | nil => exact hw
  | cons c u ih =>
    simp only [List.mem_cons, not_or] at hu
    exact .other (Ne.symm hu.1.1) (fun h => absurd h.symm hu.2.1) (ih ⟨hu.1.2, hu.2.2⟩)

theorem plain_of_lower_bound {b : UInt8} (hb : 0x80 ≤ b) : b ≠ quote ∧ b ≠ backslash := by
  constructor <;>
  · rintro rfl
    exact absurd hb (by decide)

theorem le_of_mem_multibyte (hu : IsMultibyte u) : ∀ b ∈ u, 0x80 ≤ b := by
  have htail : ∀ {b}, isTail b = true → 0x80 ≤ b := fun hb => (of_decide_eq_true hb).1
  cases hu with
  | two ha hb =>
    simp only [List.mem_cons, List.not_mem_nil, or_false, forall_eq_or_imp, forall_eq]
    exact ⟨UInt8.le_trans (by decide) ha.1, htail hb⟩
  | three ha hb hc =>
    simp only [List.mem_cons, List.not_mem_nil, or_false, forall_eq_or_imp, forall_eq]
    exact ⟨UInt8.le_trans (by decide) ha.1, htail hb, htail hc⟩
  | four ha hb hc hd =>
    simp only [List.mem_cons, List.not_mem_nil, or_false, forall_eq_or_imp, forall_eq]
    exact ⟨UInt8.le_trans (by decide) ha.1, htail hb, htail hc, htail hd⟩

theorem plain_multibyte (hu : IsMultibyte u) : quote ∉ u ∧ backslash ∉ u :=
  ⟨fun h => (plain_of_lower_bound (le_of_mem_multibyte hu _ h)).1 rfl,
    fun h => (plain_of_lower_bound (le_of_mem_multibyte hu _ h)).2 rfl⟩

theorem plain_hexDigit (h : isHexDigit c = true) : c ≠ quote ∧ c ≠ backslash := by
  constructor <;>
  · rintro rfl
    exact absurd h (by decide)

/-- The four digits of an escaped character. -/
theorem plain_unicode {a b c d : UInt8} (hhex : isHexDigit a = true ∧ isHexDigit b = true ∧
    isHexDigit c = true ∧ isHexDigit d = true) :
    quote ∉ [0x75, a, b, c, d] ∧ backslash ∉ [0x75, a, b, c, d] := by
  obtain ⟨ha, hb, hc, hd⟩ := hhex
  simp only [List.mem_cons, List.not_mem_nil, or_false, not_or]
  exact ⟨⟨by decide, (plain_hexDigit ha).1.symm, (plain_hexDigit hb).1.symm,
      (plain_hexDigit hc).1.symm, (plain_hexDigit hd).1.symm⟩,
    by decide, (plain_hexDigit ha).2.symm, (plain_hexDigit hb).2.symm,
    (plain_hexDigit hc).2.symm, (plain_hexDigit hd).2.symm⟩

theorem getLast?_of_append (h : (u ++ w).getLast? ≠ some backslash) :
    w.getLast? ≠ some backslash := by
  intro hw
  rw [List.getLast?_append, hw] at h
  exact h rfl

theorem skippable_of_chars (hw : IsChars w) (hlast : w.getLast? ≠ some backslash) :
    Skippable w := by
  induction hw with
  | nil => exact .nil
  | @unescaped c w _ hquote hback _ ih =>
    exact .other hquote (fun h => absurd h hback) (ih (getLast?_of_append (u := [c]) hlast))
  | @multibyte u w hu _ ih => exact .plain (plain_multibyte hu) (ih (getLast?_of_append hlast))
  | @escape c w hc hw ih =>
    have hw' := ih (getLast?_of_append (u := [backslash, c]) hlast)
    by_cases hq : c = quote
    · exact hq ▸ .escaped hw'
    · have hne : backslash ≠ quote := by decide
      refine .other hne (fun _ => ⟨by simp, by simpa using hq⟩) (.other hq (fun hb => ?_) hw')
      refine ⟨?_, head_chars hw⟩
      rintro rfl
      exact hlast (by simp [hb])
  | @unicode a b c d w hhex _ ih =>
    have hw' := ih (getLast?_of_append (u := [backslash, 0x75, a, b, c, d]) hlast)
    exact .other (by decide) (fun _ => ⟨by simp, by simp [quote]⟩)
      (.plain (u := [0x75, a, b, c, d]) (plain_unicode hhex) hw')

theorem endsValue_of_follows (h : Follows common r) : endsValue r = true := by
  cases r with
  | nil => rfl
  | cons c r =>
    rcases h c r rfl with h | rfl | ⟨k, rfl⟩
    · simp [endsValue, isspace_of_isWs h]
    · simp [endsValue]
    · cases k <;> simp [endsValue]

theorem startsNumber_number (hw : IsNumber w) : (w ++ r).head?.any startsNumber = true := by
  obtain @⟨minus, int, frac, exp, hminus, hint, _, _⟩ := hw
  rcases hminus with rfl | rfl
  · obtain ⟨hne, hdigits⟩ := hint.1
    cases int with
    | nil => exact absurd rfl hne
    | cons d int =>
      have hd := hdigits d List.mem_cons_self
      have hspace : isspace d = false := by
        cases hs : isspace d with
        | false => rfl
        | true => rcases isspace_cases hs with rfl | rfl | rfl | rfl | rfl | rfl <;> cases hd
      have hother :
        d ∉ [Bracket.object.opening, Bracket.array.opening, quote, 0x74, 0x66, 0x6e] := by
        simp only [List.mem_cons, List.not_mem_nil, or_false]
        rintro (rfl | rfl | rfl | rfl | rfl | rfl) <;> cases hd
      simp only [List.nil_append, List.cons_append, List.head?_cons, Option.any_some, startsNumber,
        hspace, decide_eq_false hother]
      rfl
  · rfl

theorem common_relaxed {t : Tree} (h : Text common s t) : Text relaxed s t := by
  refine Text.map (L := common) (M := relaxed) id (fun _ => isspace_of_isWs)
    (fun w hw => skippable_of_chars hw.1 hw.2) ?_ (fun _ => endsValue_of_follows) h
  rintro _ r ⟨w, hw, rfl⟩ hr
  exact ⟨strtod_number hw (endsValue_of_follows hr), endsValue_of_follows hr,
    startsNumber_number hw⟩

theorem common_rfc8259 {t : Tree} (h : Text common s t) : Text rfc8259 s t :=
  Text.map (L := common) (M := rfc8259) id (fun _ => id) (fun _ hw => And.left hw)
    (fun _ _ hn _ => hn) (fun _ _ => trivial) h

/-! ### Where the scanner believes itself to be -/

/-- Outside of strings, inside of one, there after a backslash, or at a backslash outside. -/
inductive Place
  | outside
  | inside
  | escaped
  | broken
deriving DecidableEq

def Place.next : Place → UInt8 → Place
  | .outside, c => if c = quote then .inside else if c = backslash then .broken else .outside
  | .inside, c => if c = quote then .outside else if c = backslash then .escaped else .inside
  | .escaped, c => if c = backslash then .escaped else .inside
  | .broken, _ => .broken

def Place.run (q : Place) (s : Bytes) : Place := s.foldl Place.next q

theorem run_broken (s : Bytes) : Place.broken.run s = .broken := by
  induction s with
  | nil => rfl
  | cons c s ih => exact ih

/-- Without quotes and backslashes nothing changes. -/
theorem run_plain {q : Place} (hq : q ≠ .escaped) (h : Plain s r) : q.run s = q.run r := by
  obtain ⟨w, rfl, hquote, hback⟩ := h
  induction w with
  | nil => rfl
  | cons c w ih =>
    simp only [List.mem_cons, not_or] at hquote hback
    have hc : q.next c = q := by
      cases q with
      | escaped => exact absurd rfl hq
      | broken => rfl
      | outside => simp [Place.next, Ne.symm hquote.1, Ne.symm hback.1]
      | inside => simp [Place.next, Ne.symm hquote.1, Ne.symm hback.1]
    show (q.next c).run (w ++ r) = _
    rw [hc]
    exact ih hquote.2 hback.2

/-- A backslash that no quote follows is like any other byte. -/
theorem run_escaped (h : s.head? ≠ some quote) (hne : s ≠ []) :
    Place.escaped.run s = Place.inside.run s := by
  cases s with
  | nil => exact absurd rfl hne
  | cons c s =>
    have hc : c ≠ quote := by simpa using h
    show (Place.escaped.next c).run s = (Place.inside.next c).run s
    simp [Place.next, hc]

theorem Spaces.plain {L : Lexis} (hL : ¬ L.space quote ∧ ¬ L.space backslash)
    (h : Spaces L s r) : Plain s r := by
  obtain ⟨w, rfl, hw⟩ := h.append
  exact ⟨w, rfl, fun hq => hL.1 (hw _ hq), fun hb => hL.2 (hw _ hb)⟩

theorem spaces_relaxed (h : Spaces relaxed s r) : Plain s r :=
  Spaces.plain ⟨by simp [relaxed, isspace, quote], by simp [relaxed, isspace, backslash]⟩ h

theorem spaces_rfc8259 (h : Spaces rfc8259 s r) : Plain s r :=
  Spaces.plain ⟨by simp [rfc8259, isWs, quote], by simp [rfc8259, isWs, backslash]⟩ h

theorem plain_literal {kind : Scalar} (hw : Literal kind w) : Plain (w ++ r) r := by
  cases hw <;> exact ⟨_, rfl, by decide, by decide⟩

theorem plain_opening (k : Bracket) (s : Bytes) : Plain (k.opening :: s) s := by
  cases k <;> exact .cons (by decide) (by decide)

theorem plain_closing (k : Bracket) (s : Bytes) : Plain (k.closing :: s) s := by
  cases k <;> exact .cons (by decide) (by decide)

theorem plain_comma (s : Bytes) : Plain (comma :: s) s := .cons (by decide) (by decide)

theorem plain_colon (s : Bytes) : Plain (colon :: s) s := .cons (by decide) (by decide)

/-- The scanner is at the end of a string when it believes to be. -/
theorem run_skippable (hw : Skippable w) :
    Place.inside.run (w ++ quote :: r) = Place.outside.run r := by
  induction hw with
  | nil => rfl
  | escaped _ ih => exact ih
  | @other c w hc hback _ ih =>
    by_cases hb : c = backslash
    · subst hb
      obtain ⟨hne, hhead⟩ := hback rfl
      show Place.escaped.run (w ++ quote :: r) = _
      rw [run_escaped ?_ (by simp)]
      · exact ih
      · cases w with
        | nil => exact absurd rfl hne
        | cons d w => simpa using hhead
    · show (Place.inside.next c).run (w ++ quote :: r) = _
      simp only [Place.next, if_neg hc, if_neg hb]
      exact ih

/-- After a phrase that it has accepted the scanner is outside of strings. -/
theorem run_relaxed {sym : Symbol} (h : Derives relaxed sym s r items) :
    Place.outside.run s = Place.outside.run r := by
  have hne : Place.outside ≠ .escaped := by decide
  induction h with
  | literal hw _ hs => exact hs ▸ run_plain hne (plain_literal hw)
  | number hn _ => exact run_plain hne (plain_strtod (And.left hn)).1
  | string hw hs =>
    subst hs
    exact run_skippable hw
  | empty k h _ =>
    exact run_plain hne ((plain_opening k _).trans ((spaces_relaxed h).trans (plain_closing k _)))
  | bracket k h _ _ ih =>
    exact (run_plain hne ((plain_opening k _).trans (spaces_relaxed h))).trans ih
  | element _ ih => exact ih
  | member hw hs h₁ h₂ _ ih =>
    subst hs
    refine (run_skippable hw).trans (.trans ?_ ih)
    exact run_plain hne ((spaces_relaxed h₁).trans ((plain_colon _).trans (spaces_relaxed h₂)))
  | last k _ h ih =>
    exact ih.trans (run_plain hne ((spaces_relaxed h).trans (plain_closing k _)))
  | more k _ h _ ih ihr =>
    refine ih.trans (.trans (run_plain hne ?_) ihr)
    cases h with
    | comma h h₁ =>
      exact (spaces_relaxed h).trans ((plain_comma _).trans (spaces_relaxed h₁))
    | gap _ h => exact spaces_relaxed h

/-! ### Strings that end in an escaped backslash -/

/-- Inside of a JSON string the scanner keeps up, unless the string ends in a backslash. -/
theorem run_chars (hw : IsChars w) :
    (w.getLast? ≠ some backslash ∧
      Place.inside.run (w ++ quote :: r) = Place.outside.run r) ∨
    Place.inside.run (w ++ quote :: r) = Place.inside.run r := by
  have hlast : ∀ {u w : Bytes}, u.getLast? ≠ some backslash → w.getLast? ≠ some backslash →
      (u ++ w).getLast? ≠ some backslash := by
    intro u w hu hw
    rw [List.getLast?_append]
    cases hl : w.getLast? with
    | none => exact hu
    | some b => simpa [hl] using hw
  induction hw with
  | nil => exact .inl ⟨by simp, rfl⟩
  | @unescaped c w _ hquote hback _ ih =>
    have hrun : Place.inside.run (c :: w ++ quote :: r) = Place.inside.run (w ++ quote :: r) :=
      run_plain (by decide) (.cons hquote hback)
    rw [hrun]
    exact ih.imp_left fun h => ⟨hlast (u := [c]) (by simpa using hback) h.1, h.2⟩
  | @multibyte u w hu _ ih =>
    have hplain := plain_multibyte hu
    have hrun : Place.inside.run (u ++ w ++ quote :: r) = Place.inside.run (w ++ quote :: r) :=
      run_plain (by decide) ⟨u, by simp, hplain⟩
    rw [hrun]
    refine ih.imp_left fun h => ⟨hlast (fun hu => hplain.2 ?_) h.1, h.2⟩
    exact List.mem_of_getLast? hu
  | @escape c w hc hw ih =>
    by_cases hb : c = backslash
    · subst hb
      cases w with
      | nil => exact .inr rfl
      | cons d w =>
        have hhead := head_chars hw
        have hrun : Place.inside.run (backslash :: backslash :: (d :: w) ++ quote :: r) =
            Place.inside.run (d :: w ++ quote :: r) :=
          run_escaped (s := d :: w ++ quote :: r) (by simpa using hhead) (by simp)
        rw [hrun]
        refine ih.imp_left fun h => ⟨?_, h.2⟩
        simpa using h.1
    · have hrun : Place.inside.run (backslash :: c :: w ++ quote :: r) =
          Place.inside.run (w ++ quote :: r) := by
        show (Place.escaped.next c).run (w ++ quote :: r) = _
        simp [Place.next, hb]
      rw [hrun]
      exact ih.imp_left fun h => ⟨hlast (u := [backslash, c]) (by simpa using hb) h.1, h.2⟩
  | @unicode a b c d w hhex _ ih =>
    have hplain := plain_unicode hhex
    have hrun : Place.inside.run (backslash :: 0x75 :: a :: b :: c :: d :: w ++ quote :: r) =
        Place.inside.run (w ++ quote :: r) :=
      run_plain (s := a :: b :: c :: d :: w ++ quote :: r) (by decide)
        ⟨[a, b, c, d], by simp, fun h => hplain.1 (List.mem_cons_of_mem _ h),
          fun h => hplain.2 (List.mem_cons_of_mem _ h)⟩
    rw [hrun]
    refine ih.imp_left fun h => ⟨hlast (u := [backslash, 0x75, a, b, c, d]) ?_ h.1, h.2⟩
    have hd := (plain_hexDigit hhex.2.2.2).2
    simpa using hd

/-- The scanner has lost track: it takes the outside of strings for the inside. -/
def Place.Lost (q : Place) : Prop := q = .inside ∨ q = .broken

theorem Place.Lost.ne_escaped {q : Place} (h : q.Lost) : q ≠ .escaped := by
  rcases h with rfl | rfl <;> decide

/-- Once it has, it does not find back within a string. -/
theorem run_lost_chars (hw : IsChars w) :
    ∃ q : Place, q.Lost ∧ Place.outside.run (w ++ quote :: r) = q.run r := by
  induction hw with
  | nil => exact ⟨.inside, .inl rfl, rfl⟩
  | unescaped _ hquote hback _ ih =>
    obtain ⟨q, hq, h⟩ := ih
    exact ⟨q, hq, (run_plain (by decide) (.cons hquote hback)).trans h⟩
  | @multibyte u w hu _ ih =>
    obtain ⟨q, hq, h⟩ := ih
    exact ⟨q, hq, (run_plain (by decide) ⟨u, by simp, plain_multibyte hu⟩).trans h⟩
  | @escape c w =>
    refine ⟨.broken, .inr rfl, ?_⟩
    rw [run_broken]
    exact run_broken _
  | @unicode a b c d w =>
    refine ⟨.broken, .inr rfl, ?_⟩
    rw [run_broken]
    exact run_broken _

theorem run_lost_string {q : Place} (hq : q.Lost) (hw : IsChars w) :
    ∃ q' : Place, q'.Lost ∧ q.run (quote :: (w ++ quote :: r)) = q'.run r := by
  rcases hq with rfl | rfl
  · exact run_lost_chars hw
  · exact ⟨.broken, .inr rfl, by rw [run_broken, run_broken]⟩

theorem plain_number (hw : IsNumber w) : Plain (w ++ r) r := by
  obtain @⟨minus, int, frac, exp, hminus, hint, hfrac, hexp⟩ := hw
  have hdigits : ∀ {ds : Bytes}, IsDigits ds → ∀ c ∈ ds, c ≠ quote ∧ c ≠ backslash := by
    intro ds hds c hc
    have := hds.2 c hc
    constructor <;>
    · rintro rfl
      cases this
  have hall : ∀ c ∈ minus ++ (int ++ (frac ++ exp)), c ≠ quote ∧ c ≠ backslash := by
    intro c hc
    simp only [List.mem_append] at hc
    rcases hc with hc | hc | hc | hc
    · rcases hminus with rfl | rfl
      · cases hc
      · rw [List.mem_singleton.mp hc]
        decide
    · exact hdigits hint.1 c hc
    · cases hfrac with
      | none => cases hc
      | some hds =>
        rcases List.mem_cons.mp hc with rfl | hc
        · decide
        · exact hdigits hds c hc
    · cases hexp with
      | none => cases hc
      | some he hsign hds =>
        rcases List.mem_cons.mp hc with rfl | hc
        · rcases he with rfl | rfl <;> decide
        · rcases List.mem_append.mp hc with hc | hc
          · rcases hsign with rfl | rfl | rfl
            · cases hc
            · rw [List.mem_singleton.mp hc]
              decide
            · rw [List.mem_singleton.mp hc]
              decide
          · exact hdigits hds c hc
  exact ⟨_, rfl, fun h => (hall _ h).1 rfl, fun h => (hall _ h).2 rfl⟩

/-- Between two places of a text all is `good` and the scanner keeps track, or it loses track and
does not find back. -/
structure Tracked (good : Prop) (s r : Bytes) : Prop where
  kept : good ∧ Place.outside.run s = Place.outside.run r ∨
    ∃ q : Place, q.Lost ∧ Place.outside.run s = q.run r
  lost : ∀ q : Place, q.Lost → ∃ q' : Place, q'.Lost ∧ q.run s = q'.run r

variable {good good₁ : Prop}

theorem tracked_plain (h : Plain s r) : Tracked True s r :=
  ⟨.inl ⟨trivial, run_plain (by decide) h⟩, fun q hq => ⟨q, hq, run_plain hq.ne_escaped h⟩⟩

theorem tracked_string (hw : IsChars w) :
    Tracked (w.getLast? ≠ some backslash) (quote :: (w ++ quote :: r)) r :=
  ⟨(run_chars hw).imp_right fun h => ⟨.inside, .inl rfl, h⟩, fun _ hq => run_lost_string hq hw⟩

theorem Tracked.imp (h : Tracked good s r) (hg : good → good₁) : Tracked good₁ s r :=
  ⟨h.kept.imp_left fun hk => ⟨hg hk.1, hk.2⟩, h.lost⟩

theorem Tracked.trans (h : Tracked good s s₁) (h₁ : Tracked good₁ s₁ r) :
    Tracked (good ∧ good₁) s r := by
  refine ⟨?_, fun q hq => ?_⟩
  · rcases h.kept with ⟨hg, hrun⟩ | ⟨q, hq, hrun⟩
    · rcases h₁.kept with ⟨hg₁, hrun₁⟩ | ⟨q, hq, hrun₁⟩
      · exact .inl ⟨⟨hg, hg₁⟩, hrun.trans hrun₁⟩
      · exact .inr ⟨q, hq, hrun.trans hrun₁⟩
    · obtain ⟨q', hq', hrun₁⟩ := h₁.lost q hq
      exact .inr ⟨q', hq', hrun.trans hrun₁⟩
  · obtain ⟨q₁, hq₁, hrun⟩ := h.lost q hq
    obtain ⟨q₂, hq₂, hrun₁⟩ := h₁.lost q₁ hq₁
    exact ⟨q₂, hq₂, hrun.trans hrun₁⟩

theorem common_spaces (h : Spaces rfc8259 s r) : Spaces common s r :=
  Spaces.map (L := rfc8259) (M := common) (fun _ => id) h

/-- A JSON phrase is a common one, or the scanner loses track in it. -/
theorem tracked_rfc8259 {sym : Symbol} (h : Derives rfc8259 sym s r items) :
    Tracked (Derives common sym s r items) s r := by
  induction h with
  | literal hw _ hs =>
    subst hs
    exact (tracked_plain (plain_literal hw)).imp fun _ => .literal hw trivial rfl
  | number hn hs =>
    obtain ⟨v, hv, rfl⟩ := hn
    exact (tracked_plain (plain_number hv)).imp fun _ => .number ⟨v, hv, rfl⟩ hs
  | string hw hs =>
    subst hs
    exact (tracked_string hw).imp fun hlast => .string ⟨hw, hlast⟩ rfl
  | empty k h hs =>
    have hplain := (plain_opening k _).trans ((spaces_rfc8259 h).trans (plain_closing k _))
    exact (tracked_plain hplain).imp fun _ => .empty k (common_spaces h) hs
  | bracket k h _ hs ih =>
    have hplain := (plain_opening k _).trans (spaces_rfc8259 h)
    exact ((tracked_plain hplain).trans ih).imp fun hg =>
      .bracket k (common_spaces h) hg.2 hs
  | element _ ih => exact ih.imp .element
  | member hw hs h₁ h₂ _ ih =>
    subst hs
    have hplain := (spaces_rfc8259 h₁).trans ((plain_colon _).trans (spaces_rfc8259 h₂))
    exact ((tracked_string hw).trans ((tracked_plain hplain).trans ih)).imp fun hg =>
      .member ⟨hw, hg.1⟩ rfl (common_spaces h₁) (common_spaces h₂) hg.2.2
  | last k _ h ih =>
    have hplain := (spaces_rfc8259 h).trans (plain_closing k _)
    exact (ih.trans (tracked_plain hplain)).imp fun hg => .last k hg.1 (common_spaces h)
  | more k _ h _ ih ihr =>
    cases h with
    | comma h h₁ =>
      have hplain := (spaces_rfc8259 h).trans ((plain_comma _).trans (spaces_rfc8259 h₁))
      exact (ih.trans ((tracked_plain hplain).trans ihr)).imp fun hg =>
        .more k hg.1 (.comma (common_spaces h) (common_spaces h₁)) hg.2.2
    | gap hg _ => exact hg.elim

/-- A JSON text that the scanner accepts has common strings only. -/
theorem common_of_both (hrelaxed : IsText relaxed s) (hrfc : IsText rfc8259 s) :
    IsText common s := by
  obtain ⟨_, s₁, r, hs, hv, hr⟩ := hrelaxed
  have hend : Place.outside.run s = .outside := by
    rw [run_plain (by decide) (spaces_relaxed hs), run_relaxed hv,
      run_plain (by decide) (spaces_relaxed hr)]
    rfl
  obtain ⟨t, s₂, r₂, hs₂, hv₂, hr₂⟩ := hrfc
  have htracked := (tracked_plain (spaces_rfc8259 hs₂)).trans
    ((tracked_rfc8259 hv₂).trans (tracked_plain (spaces_rfc8259 hr₂)))
  rcases htracked.kept with ⟨hg, _⟩ | ⟨q, hq, hrun⟩
  · exact ⟨t, s₂, r₂, common_spaces hs₂, hg.2.1, common_spaces hr₂⟩
  · rw [hend] at hrun
    rcases hq with rfl | rfl <;> cases hrun

/-- `json_IsValid` is right about just those texts that are in neither language, or made of the
tokens that both have. -/
theorem isValid_iff (s : Bytes) : (jsonIsValid s = true ↔ IsText rfc8259 s) ↔
    (IsText relaxed s ∨ IsText rfc8259 s → IsText common s) := by
  rw [jsonIsValid_iff]
  constructor
  · rintro heq (h | h)
    · exact common_of_both h (heq.mp h)
    · exact common_of_both (heq.mpr h) h
  · intro hcommon
    constructor
    · intro h
      obtain ⟨t, ht⟩ := hcommon (.inl h)
      exact ⟨t, common_rfc8259 ht⟩
    · intro h
      obtain ⟨t, ht⟩ := hcommon (.inr h)
      exact ⟨t, common_relaxed ht⟩

/-- A string of one backslash is JSON, but not accepted. -/
theorem isValid_iff_fails :
    ¬ (jsonIsValid [quote, backslash, backslash, quote] = true ↔
      IsText rfc8259 [quote, backslash, backslash, quote]) := by
  have htext : IsText rfc8259 [quote, backslash, backslash, quote] :=
    ⟨_, _, [], .nil _, .string (w := [backslash, backslash]) (.escape rfl .nil) rfl, .nil _⟩
  have hinvalid : jsonIsValid [quote, backslash, backslash, quote] = false := by decide
  simp [htext, hinvalid]

end MangOH.Json
