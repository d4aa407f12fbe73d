import MangOH.DataHub.HandlerCalls
import MangOH.DataHub.Rationals
import MangOH.DataHub.ReadFraming
import MangOH.Json.Assembly
import MangOH.Lib.Rounding

/-! Which samples are rendered as JSON that stands for them. -/
namespace MangOH.DataHub

open Outcome JsonGrammar Json Lib

variable {P : Platform} {s : DataSample} {t : DataType} {d : Double} {v : Value} {tree : Tree}
  {u r w : CString} {items : List (CString × Tree)} {e : BufferEntry} {l : List BufferEntry}
  {texts : List CString} {size : Nat}

/-- How many times the smallest positive double goes into one. -/
def ulpsPerOne : Nat := 2 ^ 1074

/-- What `%lf` prints: six digits behind the point. -/
def printLf (d : Double) : CString :=
  (if d.isNegative then ascii "-" else []) ++
    if d.isFinite then fixedPoint 6 (roundHalfEven (Double.ulps d.magnitude * 10 ^ 6) ulpsPerOne)
    else if d.isNaN then ascii "nan"
    else ascii "inf"

def Platform.PrintsLf (P : Platform) : Prop := ∀ d, P.formatLf d = printLf d

/-- A JSON value stands for the value of a sample. A trigger has none. -/
def Represents : Tree → Value → Prop
  | .scalar .boolean w, .boolean b => w = ascii (if b then "true" else "false")
  | .scalar .number w, .numeric d => d.isFinite = true ∧ numberValue w = d.toRat
  | .scalar .string w, .string text => StandsFor w text.bytes
  | tree, .json text => JsonGrammar.Text rfc8259 text.bytes tree
  | _, _ => False

/-- An object of a buffer's array stands for a sample: it has the timestamp, and the value unless it
is a trigger. -/
def EntryRepresents (text : CString) (s : DataSample) : Prop :=
  ∃ w stamp, Represents stamp (.numeric s.timestamp) ∧
    if s.value = .trigger then
      JsonGrammar.Text rfc8259 text (.bracket .object w [(ascii "t", stamp)])
    else ∃ tree, Represents tree s.value ∧
      JsonGrammar.Text rfc8259 text (.bracket .object w [(ascii "t", stamp), (ascii "v", tree)])

/-- A whole number of millionths. -/
def Double.Millionths (d : Double) : Prop :=
  d.isFinite = true ∧ ∃ k : ℤ, d.toRat = k / (10 ^ 6 : Nat)

/-- The values that can be rendered: not a trigger, numbers without further decimals, strings
without escapes, and JSON. -/
def Value.Plain : Value → Prop
  | .trigger => False
  | .boolean _ => True
  | .numeric d => d.Millionths
  | .string text => IsChars text.bytes ∧ backslash ∉ text.bytes
  | .json text => IsText rfc8259 text.bytes

/-- The length of the text that stands for it. -/
def renderedLength (P : Platform) : Value → Nat
  | .trigger => 0
  | .boolean b => if b then 4 else 5
  | .numeric d => (P.formatLf d).length
  | .string text => text.bytes.length + 2
  | .json text => text.bytes.length

/-! ### Numbers as they are printed -/

theorem roundHalfEven_mul {q n : Nat} (hn : 0 < n) : roundHalfEven (q * n) n = q := by
  unfold roundHalfEven
  rw [Nat.mul_mod_left, Nat.mul_zero, if_pos hn, Nat.mul_div_cancel q hn]

/-- A quotient is rounded to what it is if it is a whole number of millionths. -/
theorem roundHalfEven_eq_iff {q n : Nat} (hn : 0 < n) :
    (roundHalfEven (q * 10 ^ 6) n : ℚ) / (10 ^ 6 : Nat) = q / n ↔ n ∣ q * 10 ^ 6 := by
  have hn' : (n : ℚ) ≠ 0 := Nat.cast_ne_zero.mpr (Nat.ne_of_gt hn)
  have hmillion : ((10 ^ 6 : Nat) : ℚ) ≠ 0 := by norm_num
  rw [div_eq_div_iff hmillion hn', ← Nat.cast_mul, ← Nat.cast_mul, Nat.cast_inj]
  constructor
  · intro heq
    exact ⟨_, heq.symm.trans (Nat.mul_comm _ _)⟩
  · rintro ⟨m, hm⟩
    rw [hm, Nat.mul_comm n m, roundHalfEven_mul hn]

theorem ulpsPerOne_pos : 0 < ulpsPerOne := by
  unfold ulpsPerOne
  positivity

theorem toRat_eq (d : Double) : d.toRat =
    (if d.isNegative then -1 else 1) * (Double.ulps d.magnitude / (ulpsPerOne : ℚ)) := by
  unfold Double.toRat Double.scaled ulpsPerOne
  rw [Nat.cast_pow, Nat.cast_ofNat]
  cases d.isNegative with
  | true => rw [if_pos rfl, if_pos rfl, Int.cast_neg, Int.cast_natCast, neg_div, neg_one_mul]
  | false =>
    rw [if_neg Bool.false_ne_true, if_neg Bool.false_ne_true, Int.cast_natCast, one_mul]

theorem millionths_iff (hd : d.isFinite = true) :
    d.Millionths ↔ ulpsPerOne ∣ Double.ulps d.magnitude * 10 ^ 6 := by
  have hpos := ulpsPerOne_pos
  unfold Double.Millionths
  rw [toRat_eq]
  generalize ulpsPerOne = n at hpos
  have hn : (n : ℚ) ≠ 0 := Nat.cast_ne_zero.mpr (Nat.ne_of_gt hpos)
  have hmillion : ((10 ^ 6 : Nat) : ℚ) ≠ 0 := by norm_num
  constructor
  · rintro ⟨-, k, hk⟩
    have habs : Double.ulps d.magnitude * 10 ^ 6 = k.natAbs * n := by
      rw [← mul_div_assoc, div_eq_div_iff hn hmillion] at hk
      have hint : (if d.isNegative then -1 else 1) * (Double.ulps d.magnitude : ℤ) *
          (10 ^ 6 : Nat) = k * n := by
        exact_mod_cast hk
      have hnat := congrArg Int.natAbs hint
      rw [Int.natAbs_mul, Int.natAbs_mul, Int.natAbs_mul, Int.natAbs_natCast, Int.natAbs_natCast,
        Int.natAbs_natCast] at hnat
      rw [← hnat]
      cases d.isNegative <;> simp
    rw [habs]
    exact Nat.dvd_mul_left n _
  · intro hdvd
    have heq := (roundHalfEven_eq_iff (q := Double.ulps d.magnitude) hpos).mpr hdvd
    refine ⟨hd, (if d.isNegative then -1 else 1) *
      (roundHalfEven (Double.ulps d.magnitude * 10 ^ 6) n : ℤ), ?_⟩
    rw [← heq, ← mul_div_assoc]
    cases d.isNegative <;> simp

/-- A finite double is printed as what it is if it is a whole number of millionths. -/
theorem numberValue_printLf (hd : d.isFinite = true) :
    numberValue (printLf d) = d.toRat ↔ d.Millionths := by
  have hprinted : numberValue (printLf d) = (if d.isNegative then -1 else 1) *
      (roundHalfEven (Double.ulps d.magnitude * 10 ^ 6) ulpsPerOne / ((10 ^ 6 : Nat) : ℚ)) := by
    unfold printLf
    rw [if_pos hd]
    generalize roundHalfEven (Double.ulps d.magnitude * 10 ^ 6) ulpsPerOne = m
    obtain ⟨hplus, hminus⟩ := numberValue_fixedPoint 6 m
    have hsign : ascii "-" = [0x2d] := rfl
    cases d.isNegative with
    | true => rw [if_pos rfl, if_pos rfl, neg_one_mul, hsign, List.singleton_append, hminus]
    | false =>
      rw [if_neg Bool.false_ne_true, if_neg Bool.false_ne_true, one_mul, List.nil_append, hplus]
  have hsign : (if d.isNegative then -1 else 1 : ℚ) ≠ 0 := by cases d.isNegative <;> simp
  rw [hprinted, toRat_eq, mul_right_inj' hsign, millionths_iff hd,
    roundHalfEven_eq_iff ulpsPerOne_pos]

/-! ### Values in their surroundings -/

theorem isNumber_printLf (hd : d.isFinite = true) : IsNumber (printLf d) := by
  unfold printLf
  rw [if_pos hd]
  refine isNumber_fixedPoint ?_ (by decide) _
  cases d.isNegative with
  | true => exact .inr rfl
  | false => exact .inl rfl

theorem head_digit (hw : w.head?.any isDigit = true) : ∃ c u, w = c :: u ∧ isWs c = false := by
  cases w with
  | nil => cases hw
  | cons c w =>
    refine ⟨c, w, rfl, ?_⟩
    have hc : isDigit c = true := hw
    cases hspace : isWs c with
    | false => rfl
    | true =>
      simp only [isWs, Bool.or_eq_true, beq_iff_eq] at hspace
      rcases hspace with ((rfl | rfl) | rfl) | rfl <;> cases hc

/-- No white space is printed in front of a number. -/
theorem head_printLf (d : Double) : ∃ c w, printLf d = c :: w ∧ isWs c = false := by
  have hminus : ascii "-" = [0x2d] := rfl
  have hnan : ascii "nan" = [0x6e, 0x61, 0x6e] := rfl
  have hinf : ascii "inf" = [0x69, 0x6e, 0x66] := rfl
  unfold printLf
  generalize roundHalfEven (Double.ulps d.magnitude * 10 ^ 6) ulpsPerOne = m
  rw [hminus, hnan, hinf]
  cases d.isNegative with
  | true =>
    rw [if_pos rfl, List.singleton_append]
    exact ⟨_, _, rfl, rfl⟩
  | false =>
    rw [if_neg Bool.false_ne_true, List.nil_append]
    cases d.isFinite with
    | true =>
      rw [if_pos rfl]
      exact head_digit (head_fixedPoint 6 m)
    | false =>
      rw [if_neg Bool.false_ne_true]
      cases d.isNaN with
      | true => exact ⟨0x6e, _, rfl, rfl⟩
      | false => exact ⟨0x69, _, rfl, rfl⟩

theorem not_numeric_of_spaces (h : Spaces rfc8259 u r) (hr : r.head?.any isNumeric = false) :
    u.head?.any isNumeric = false := by
  cases h with
  | nil => exact hr
  | @cons c s r hc _ =>
    have hspace : isWs c = true := hc
    simp only [isWs, Bool.or_eq_true, beq_iff_eq] at hspace
    rcases hspace with ((rfl | rfl) | rfl) | rfl <;> rfl

/-- A double that is printed as a number it stands for, and nothing else. -/
theorem millionths_of_represents (hs : Spaces rfc8259 (printLf d ++ r) u)
    (hv : Derives rfc8259 .value u w [([], tree)]) (hd : Represents tree (.numeric d))
    (hr : r.head?.any isNumeric = false) (hw : w.head?.any isNumeric = false) :
    d.Millionths ∧ w = r := by
  obtain ⟨c, rest, hprint, hc⟩ := head_printLf d
  rw [hprint] at hs
  have hu : u = printLf d ++ r := by
    rw [hprint]
    exact spaces_self hs hc
  cases hv with
  | literal hlit => cases hlit <;> exact hd.elim
  | @number text _ _ hn hs' =>
    obtain ⟨hfinite, hvalue⟩ := hd
    obtain ⟨text', hnumber, heq⟩ := hn
    obtain rfl := List.append_cancel_right (hs'.symm.trans heq)
    have htake := hnumber.takeWhile hw
    rw [← heq, hu, (isNumber_printLf hfinite).takeWhile hr] at htake
    subst htake
    exact ⟨(numberValue_printLf hfinite).mp hvalue,
      List.append_cancel_left (heq.symm.trans hu)⟩
  | string => cases hd
  | empty => cases hd
  | bracket => cases hd

theorem represents_json {text : Text} :
    Represents tree (.json text) ↔ JsonGrammar.Text rfc8259 text.bytes tree := by
  cases tree with
  | bracket => exact Iff.rfl
  | scalar kind => cases kind <;> exact Iff.rfl

/-- A text that stands for its value within another text: then the value is plain. -/
theorem plain_of_represents (hprint : P.PrintsLf) (hs : Spaces rfc8259 (v.jsonText P ++ r) u)
    (hv : Derives rfc8259 .value u w [([], tree)]) (hd : Represents tree v)
    (hr : r.head?.any isNumeric = false) (hw : w.head?.any isNumeric = false)
    (hlen : r.length ≤ w.length) : v.Plain := by
  cases v with
  | trigger =>
    cases tree with
    | bracket => exact hd
    | scalar kind => cases kind <;> exact hd
  | boolean => trivial
  | numeric d =>
    rw [Value.jsonText, hprint] at hs
    exact (millionths_of_represents hs hv hd hr hw).1
  | string text =>
    have hu : u = quote :: (text.bytes ++ quote :: r) := by
      rw [Value.jsonText, List.append_assoc, List.append_assoc] at hs
      exact spaces_self hs (by decide)
    cases hv with
    | literal hlit => cases hlit <;> exact hd.elim
    | number => cases hd
    | @string chars _ _ hchars hs' =>
      have hd : StandsFor chars text.bytes := hd
      have hsplit : chars ++ quote :: w = text.bytes ++ quote :: r :=
        (List.cons.inj (hs'.symm.trans hu)).2
      -- neither is longer than the other
      have hle := hd.length_le.1
      have hsum := congrArg List.length hsplit
      simp only [List.length_append, List.length_cons] at hsum
      obtain ⟨rfl, -⟩ := List.append_inj hsplit (by omega)
      exact ⟨hchars, standsFor_self.mp hd⟩
    | empty => cases hd
    | bracket => cases hd
  | json text => exact ⟨tree, represents_json.mp hd⟩

/-- The text of a plain value stands for it. -/
theorem text_of_plain (hprint : P.PrintsLf) (h : v.Plain) :
    ∃ tree, Represents tree v ∧ JsonGrammar.Text rfc8259 (v.jsonText P) tree := by
  cases v with
  | trigger => exact h.elim
  | boolean b =>
    refine ⟨.scalar .boolean (ascii (if b then "true" else "false")), rfl, _, [], .nil _, ?_,
      .nil _⟩
    cases b with
    | true => exact .literal .true trivial rfl
    | false => exact .literal .false trivial rfl
  | numeric d =>
    refine ⟨.scalar .number (printLf d), ⟨h.1, (numberValue_printLf h.1).mpr h⟩, _, [], .nil _, ?_,
      .nil _⟩
    have hwhole : P.formatLf d = printLf d ++ [] := by rw [hprint, List.append_nil]
    exact .number ⟨printLf d, isNumber_printLf h.1, hwhole⟩ hwhole
  | string text =>
    exact ⟨.scalar .string text.bytes, standsFor_self.mpr h.2, _, [], .nil _,
      .string h.1 rfl, .nil _⟩
  | json text =>
    obtain ⟨tree, htree⟩ := h
    exact ⟨tree, represents_json.mpr htree, htree⟩

/-! ### One value -/

/-- The buffer is too small, or it gets a JSON text that stands for the value. -/
def ConvertsWell (P : Platform) (s : DataSample) (size : Nat) : Prop :=
  ∃ result, dataSampleConvertToJson P s s.type size = .ok result ∧
    ∀ text, result = some text →
      ∃ tree, Represents tree s.value ∧ JsonGrammar.Text rfc8259 text tree

theorem length_jsonText (v : Value) : (v.jsonText P).length = renderedLength P v := by
  cases v with
  | boolean b => cases b <;> rfl
  | string text => simp [Value.jsonText, renderedLength, ascii]
  | _ => rfl

theorem convertsWell_iff (hprint : P.PrintsLf) :
    ConvertsWell P s size ↔ size ≤ renderedLength P s.value ∨ s.value.Plain := by
  have hconvert := convertToJson_eq (P := P) (s := s) rfl size
  unfold fitting at hconvert
  rw [length_jsonText] at hconvert
  constructor
  · rintro ⟨result, hresult, hgood⟩
    rw [hconvert] at hresult
    cases hresult
    rcases Nat.lt_or_ge (renderedLength P s.value) size with hfits | hlong
    · obtain ⟨tree, hd, u, w, hs, hv, hw⟩ := hgood _ (if_pos hfits)
      rw [← List.append_nil (s.value.jsonText P)] at hs
      exact .inr (plain_of_represents hprint hs hv hd rfl (not_numeric_of_spaces hw rfl)
        (Nat.zero_le _))
    · exact .inl hlong
  · intro h
    refine ⟨_, hconvert, fun text htext => ?_⟩
    rcases h with hlong | hplain
    · rw [if_neg (Nat.not_lt.mpr hlong)] at htext
      cases htext
    · obtain ⟨-, rfl⟩ : renderedLength P s.value < size ∧ s.value.jsonText P = text := by
        simpa [Option.ite_none_right_eq_some] using htext
      exact text_of_plain hprint hplain

/-! ### One entry -/

/-- There is room for the timestamp and the value in a write buffer. -/
def FitsWriteBuffer (P : Platform) (s : DataSample) : Prop :=
  (P.formatLf s.timestamp).length + renderedLength P s.value + 11 < readOpBuffBytes

/-- The samples that a read of type `t` renders as what they are. -/
structure Renders (P : Platform) (t : DataType) (s : DataSample) : Prop where
  type : s.type = t
  stamp : s.timestamp.Millionths
  value : s.value.Plain
  fits : FitsWriteBuffer P s

/-- An object with a timestamp and a value. -/
def entryText (stamp value : CString) : CString :=
  bracketed .object [quote :: ([0x74] ++ quote :: colon :: stamp),
    quote :: ([0x76] ++ quote :: colon :: value)]

theorem entryText_eq (stamp value : CString) : entryText stamp value =
    0x7b :: quote :: 0x74 :: quote :: colon ::
      (stamp ++ comma :: quote :: 0x76 :: quote :: colon :: (value ++ [0x7d])) := by
  simp [entryText, bracketed, List.intercalate, Bracket.opening, Bracket.closing]

theorem renderEntry_eq (hs : s.type = t) (hfits : FitsWriteBuffer P s) :
    renderEntry P t s =
      .ok (some (entryText (P.formatLf s.timestamp) (s.value.jsonText P))) := by
  have hlen := length_jsonText (P := P) s.value
  unfold FitsWriteBuffer at hfits
  unfold renderEntry
  simp only [convertToJson_eq hs, ok_bind, fitting, hlen]
  rw [if_neg, if_pos]
  · rw [entryText_eq]
    simp [ascii, quote, colon, comma]
    rfl
  · simp [ascii]
    omega
  · simp [ascii]
    omega

/-- Only at the type of a trigger can samples of other types be rendered. -/
theorem type_of_converted {result : Option CString} (ht : t ≠ .trigger)
    (h : dataSampleConvertToJson P s t size = .ok result) : s.type = t := by
  obtain ⟨ts, v, via, hops⟩ := s
  cases t with
  | trigger => exact absurd rfl ht
  | boolean => cases v <;> first | rfl | cases h
  | numeric => cases v <;> first | rfl | cases h
  | string => cases v <;> first | rfl | cases h
  | json => cases v <;> first | rfl | cases h

/-- What is printed of an entry: it and its value, or no value. -/
theorem renderEntry_cases {text : CString} (h : renderEntry P t s = .ok (some text)) :
    s.type = t ∧ FitsWriteBuffer P s ∧
        text = entryText (P.formatLf s.timestamp) (s.value.jsonText P) ∨
      text = entryText (P.formatLf s.timestamp) [] := by
  have hlen := length_jsonText (P := P) s.value
  unfold renderEntry at h
  dsimp only at h
  split at h
  · cases h
  · next hroom =>
    obtain ⟨json, hjson, h⟩ := bind_eq_ok.mp h
    by_cases ht : t = .trigger
    · subst ht
      right
      cases json with
      | none => cases h
      | some json =>
        have hempty : json = [] := by
          rw [dataSampleConvertToJson] at hjson
          split at hjson <;> cases hjson
          rfl
        cases h
        rw [hempty, entryText_eq]
        simp [ascii, quote, colon, comma]
    · left
      have hs := type_of_converted ht hjson
      rw [convertToJson_eq hs] at hjson
      cases hjson
      unfold fitting at h
      split at h
      · next hfits =>
        cases h
        rw [hlen] at hfits
        refine ⟨hs, ?_, ?_⟩
        · unfold FitsWriteBuffer
          simp [ascii] at hfits hroom
          omega
        · rw [entryText_eq]
          simp [ascii, quote, colon, comma]
      · cases h

/-! #### Taking an object apart -/

/-- The first member of an object is the timestamp; the value follows it. -/
theorem stamp_of_entry {stamp value : CString} {item : CString × Tree}
    (hstamp : stamp = printLf d)
    (h : JsonGrammar.Text rfc8259 (entryText stamp value) (.bracket .object w (item :: items)))
    (hd : Represents item.2 (.numeric d)) :
    d.Millionths ∧ ∃ tail, items ≠ [] ∧ Derives rfc8259 (.items .object)
      (quote :: 0x76 :: quote :: colon :: (value ++ [0x7d])) tail items := by
  subst hstamp
  rw [entryText_eq] at h
  obtain ⟨u, tail, hu, hi, -⟩ := items_of_text (k := .object) h (List.cons_ne_nil _ _)
  have hquote : isWs quote = false := rfl
  cases spaces_self hu hquote
  obtain ⟨u₁, item', rest, hitem, heq, -, hrest⟩ := items_cases hi
  cases heq
  obtain ⟨-, u₂, hu₂, hv⟩ := member_of_item (by decide) (by decide) (by decide) hitem
  have hcomma : (comma :: quote :: 0x76 :: quote :: colon :: (value ++ [0x7d])).head?.any isNumeric
      = false := rfl
  rcases hrest with ⟨rfl, hclosing⟩ | ⟨u₃, u₄, hc, hu₄, hmore⟩
  · obtain ⟨hmillionths, rfl⟩ := millionths_of_represents hu₂ hv hd hcomma
      (not_numeric_of_spaces hclosing rfl)
    cases spaces_self hclosing rfl
  · obtain ⟨hmillionths, rfl⟩ := millionths_of_represents hu₂ hv hd hcomma
      (not_numeric_of_spaces hc rfl)
    cases spaces_self hc rfl
    cases spaces_self hu₄ hquote
    exact ⟨hmillionths, tail, items_ne_nil hmore, hmore⟩

/-- The second member is the last one. -/
theorem value_of_entry {value tail : CString} {item : CString × Tree}
    (h : Derives rfc8259 (.items .object)
      (quote :: 0x76 :: quote :: colon :: (value ++ [0x7d])) tail [item]) :
    ∃ u w, Spaces rfc8259 (value ++ [0x7d]) u ∧ Derives rfc8259 .value u w [([], item.2)] ∧
      Spaces rfc8259 w (0x7d :: tail) := by
  obtain ⟨u, item', rest, hitem, heq, -, hrest⟩ := items_cases h
  cases heq
  obtain ⟨-, u₁, hu₁, hv⟩ := member_of_item (by decide) (by decide) (by decide) hitem
  rcases hrest with ⟨-, hclosing⟩ | ⟨_, _, _, _, hmore⟩
  · exact ⟨u₁, u, hu₁, hv, hclosing⟩
  · exact absurd rfl (items_ne_nil hmore)

/-- Without a value, an object is malformed. -/
theorem not_entryRepresents_nil (hprint : P.PrintsLf) :
    ¬ EntryRepresents (entryText (P.formatLf s.timestamp) []) s := by
  rintro ⟨w, stamp, hstamp, hmembers⟩
  have hprinted := hprint s.timestamp
  split at hmembers
  · obtain ⟨-, _, hne, -⟩ := stamp_of_entry hprinted hmembers hstamp
    exact hne rfl
  · obtain ⟨tree, -, h⟩ := hmembers
    obtain ⟨-, tail, -, hmore⟩ := stamp_of_entry hprinted h hstamp
    obtain ⟨u, r, hu, hv, -⟩ := value_of_entry hmore
    cases spaces_self hu rfl
    exact absurd rfl (head_ne_closing (k := .object) hv)

theorem renders_of_entryRepresents (hprint : P.PrintsLf) {text : CString}
    (h : renderEntry P t s = .ok (some text)) (hd : EntryRepresents text s) : Renders P t s := by
  rcases renderEntry_cases h with ⟨hs, hfits, rfl⟩ | rfl
  · obtain ⟨w, stamp, hstamp, hmembers⟩ := hd
    have hprinted := hprint s.timestamp
    split at hmembers
    · obtain ⟨-, _, hne, -⟩ := stamp_of_entry hprinted hmembers hstamp
      exact absurd rfl hne
    · obtain ⟨tree, htree, h⟩ := hmembers
      obtain ⟨hmillionths, tail, -, hmore⟩ := stamp_of_entry hprinted h hstamp
      obtain ⟨u, r, hu, hv, hr⟩ := value_of_entry hmore
      have hlen := hr.length_le
      rw [List.length_cons] at hlen
      exact ⟨hs, hmillionths, plain_of_represents hprint hu hv htree rfl
        (not_numeric_of_spaces hr rfl) (by rw [List.length_singleton]; omega), hfits⟩
  · exact absurd hd (not_entryRepresents_nil hprint)

theorem entryRepresents_of_renders (hprint : P.PrintsLf) (h : Renders P t s) :
    ∃ text, renderEntry P t s = .ok (some text) ∧ EntryRepresents text s := by
  refine ⟨_, renderEntry_eq h.type h.fits, ?_⟩
  obtain ⟨tree, hd, htree⟩ := text_of_plain hprint h.value
  obtain ⟨stamp, hstamp, hstampText⟩ :=
    text_of_plain (P := P) (v := .numeric s.timestamp) hprint h.stamp
  have hne : s.value ≠ .trigger := by
    intro heq
    have hplain := h.value
    rw [heq] at hplain
    exact hplain
  refine ⟨entryText (P.formatLf s.timestamp) (s.value.jsonText P), stamp, hstamp, ?_⟩
  rw [if_neg hne]
  have hname : ∀ c : UInt8, 0x20 ≤ c ∧ c ≤ 0x7f → c ≠ quote → c ≠ backslash → IsChars [c] :=
    fun c hc hq hb => .unescaped hc hq hb .nil
  have ht : IsChars [0x74] := hname 0x74 (by decide) (by decide) (by decide)
  have hv : IsChars [0x76] := hname 0x76 (by decide) (by decide) (by decide)
  exact ⟨tree, hd, text_bracketed
    (.cons (.member ht hstampText) (.cons (.member hv htree) .nil))⟩

/-! ### The array -/

/-- What a read writes of some entries is a JSON array with an object for each of them, in order. -/
def RendersArray (P : Platform) (t : DataType) (l : List BufferEntry) (texts : List CString) :
    Prop :=
  renderAll P t l = .ok texts ∧ IsText rfc8259 (jsonArray texts) ∧
    List.Forall₂ EntryRepresents texts (l.map (·.sampleRef))

theorem isText_of_entryRepresents {text : CString} (h : EntryRepresents text s) :
    IsText rfc8259 text := by
  obtain ⟨_, _, _, hmembers⟩ := h
  split at hmembers
  · exact ⟨_, hmembers⟩
  · obtain ⟨_, _, htext⟩ := hmembers
    exact ⟨_, htext⟩

theorem isText_jsonArray {samples : List DataSample}
    (h : List.Forall₂ EntryRepresents texts samples) : IsText rfc8259 (jsonArray texts) := by
  obtain ⟨items, hitems⟩ : ∃ items, List.Forall₂ (ItemText .array) texts items := by
    induction h with
    | nil => exact ⟨[], .nil⟩
    | cons htext _ ih =>
      obtain ⟨items, hitems⟩ := ih
      obtain ⟨tree, htree⟩ := isText_of_entryRepresents htext
      exact ⟨([], tree) :: items, .cons (.element htree) hitems⟩
  exact ⟨_, text_bracketed hitems⟩

theorem length_renderAll (h : renderAll P t l = .ok texts) : texts.length ≤ l.length := by
  induction l generalizing texts with
  | nil =>
    cases h
    exact Nat.le_refl _
  | cons e l ih =>
    obtain ⟨text, others, -, hothers, rfl⟩ := renderAll_cons h
    have hle := ih hothers
    cases text with
    | none => exact Nat.le_succ_of_le hle
    | some text => exact Nat.succ_le_succ hle

theorem renders_of_array (hprint : P.PrintsLf) (h : renderAll P t l = .ok texts)
    (hd : List.Forall₂ EntryRepresents texts (l.map (·.sampleRef))) :
    ∀ e ∈ l, Renders P t e.sampleRef := by
  induction l generalizing texts with
  | nil => simp
  | cons e l ih =>
    obtain ⟨text, others, htext, hothers, rfl⟩ := renderAll_cons h
    cases text with
    | none =>
      -- a sample without an object leaves too few objects
      have hle := length_renderAll hothers
      have hlen := hd.length_eq
      simp only [Option.toList_none, List.nil_append, List.length_map, List.length_cons] at hlen
      omega
    | some text =>
      cases hd with
      | cons hfirst hrest =>
        intro e' he'
        rcases List.mem_cons.mp he' with rfl | he'
        · exact renders_of_entryRepresents hprint htext hfirst
        · exact ih hothers hrest e' he'

theorem rendersArray_of_renders (hprint : P.PrintsLf) (h : ∀ e ∈ l, Renders P t e.sampleRef) :
    ∃ texts, RendersArray P t l texts := by
  have hall : ∃ texts, renderAll P t l = .ok texts ∧
      List.Forall₂ EntryRepresents texts (l.map (·.sampleRef)) := by
    induction l with
    | nil => exact ⟨[], rfl, .nil⟩
    | cons e l ih =>
      obtain ⟨texts, htexts, hd⟩ := ih fun e' he' => h e' (List.mem_cons_of_mem _ he')
      obtain ⟨text, htext, hfirst⟩ := entryRepresents_of_renders hprint (h e List.mem_cons_self)
      refine ⟨text :: texts, ?_, .cons hfirst hd⟩
      unfold renderAll
      rw [htext, htexts]
      rfl
  obtain ⟨texts, htexts, hd⟩ := hall
  exact ⟨texts, htexts, isText_jsonArray hd, hd⟩

/-- A read that starts writes a JSON array with an object for each sample from there on, as long as
the buffer stays as it is. -/
def ReadsAsArray (P : Platform) (ctx : ObsContext) (o : Observation) (id : Nat)
    (startAfter : Double) (calls : List SysWrite) : Prop :=
  ∃ texts o' evs, obsReadBufferJson P ctx o id startAfter (writeToFd calls) = .ok (o', evs) ∧
    StreamsArray P ctx.currentType id (jsonArray texts) evs o' ∧
    RendersArray P ctx.currentType (ahead o (findAfter P ctx.env o startAfter)) texts

/-- Exactly the plain values are rendered as JSON that stands for them, and exactly the buffers of
such samples, with times without further decimals, as the array that stands for them. -/
theorem rendering_iff (hprint : P.PrintsLf) (hP : PeeksList P) :
    (∀ s size, ConvertsWell P s size ↔ size ≤ renderedLength P s.value ∨ s.value.Plain) ∧
    ∀ h r x o, Reachable P h → h.resources r = some x → x.cls = .observation o →
      ∀ ctx startAfter calls, .failed ∉ calls →
        (ReadsAsArray P ctx o h.nextRead startAfter calls ↔
          ∀ e ∈ ahead o (findAfter P ctx.env o startAfter),
            Renders P ctx.currentType e.sampleRef) := by
  refine ⟨fun s size => convertsWell_iff hprint, ?_⟩
  intro h r x o hr hx ho ctx startAfter calls hcalls
  constructor
  · rintro ⟨texts, _, _, _, _, hrender, _, hd⟩
    exact renders_of_array hprint hrender hd
  · intro hall
    obtain ⟨texts, hrender⟩ := rendersArray_of_renders hprint hall
    obtain ⟨log, hlog, _⟩ := observation_reachable (fun _ => True) hr (fun _ _ _ => trivial) hx ho
    obtain ⟨o', evs, hread, hstream⟩ := streamsArray_of_start hP (hlog.referencesOk hP)
      (fresh_nextRead hr hx ho) ctx startAfter hcalls hrender.1
    exact ⟨texts, o', evs, hread, hstream, hrender⟩

/-- A platform that prints all numbers as they are. -/
def printingPlatform : Platform := { smallPlatform with formatLf := printLf }

theorem printsLf_printingPlatform : printingPlatform.PrintsLf := fun _ => rfl

theorem peeksList_printingPlatform : PeeksList printingPlatform := fun _ _ _ hn => by cases hn

/-- A small natural number. -/
def Double.isSmall (d : Double) : Bool := decide (d = double d.toNat ∧ d.toNat < 100)

theorem millionths_of_isSmall (h : d.isSmall = true) : d.Millionths := by
  obtain ⟨heq, hlt⟩ := of_decide_eq_true h
  have hnat := isNat_double (Nat.lt_trans hlt (by decide : 100 < 2 ^ 53))
  rw [← heq] at hnat
  refine ⟨hnat.1, (d.toNat * 10 ^ 6 : Nat), ?_⟩
  rw [hnat.2, Int.cast_natCast, Nat.cast_mul]
  exact (mul_div_cancel_right₀ _ (by norm_num)).symm

/-- A small number at a small time, that fits. -/
def plainNumber (s : DataSample) : Bool :=
  match s.value with
  | .numeric d => s.timestamp.isSmall && d.isSmall &&
      decide ((printLf s.timestamp).length + (printLf d).length + 11 < readOpBuffBytes)
  | _ => false

theorem renders_of_plainNumber (h : plainNumber s = true) :
    Renders printingPlatform .numeric s := by
  obtain ⟨ts, v, via, hops⟩ := s
  cases v with
  | numeric d =>
    simp only [plainNumber, Bool.and_eq_true, decide_eq_true_eq] at h
    obtain ⟨⟨hstamp, hvalue⟩, hfits⟩ := h
    exact ⟨rfl, millionths_of_isSmall hstamp, millionths_of_isSmall hvalue, hfits⟩
  | _ => cases h

theorem rendering_iff_lateSampleRun : ∃ h x o, Reachable printingPlatform h ∧
    h.resources 0 = some x ∧ x.cls = .observation o ∧ o.sampleList.length = 2 ∧
    ConvertsWell printingPlatform ⟨double 1, .boolean true, [], 0⟩ 10 ∧
    ReadsAsArray printingPlatform ⟨smallEnvironment, none, .numeric⟩ o h.nextRead .nan
      [.interrupted, .wrote 0, .again] := by
  have hrun : passes (run printingPlatform 8 (boot smallEnvironment []) lateSampleRun)
      (fun h => (h.observation 0).any fun o => o.sampleList.length = 2 &&
        o.sampleList.all fun e => plainNumber e.sampleRef) = true := by
    decide +kernel
  obtain ⟨h, hr, hp⟩ := passes_iff.mp hrun
  obtain ⟨o, ho, hp⟩ := (Option.any_eq_true _ _).mp hp
  obtain ⟨x, hx, hcls⟩ := observation_eq_some ho
  rw [Bool.and_eq_true, decide_eq_true_eq, List.all_eq_true] at hp
  obtain ⟨hlen, hplain⟩ := hp
  have hreach := reachable_run _ (.boot _ _) hr
  obtain ⟨hone, hall⟩ := rendering_iff printsLf_printingPlatform peeksList_printingPlatform
  refine ⟨h, x, o, hreach, hx, hcls, hlen, (hone _ _).mpr (.inr trivial), ?_⟩
  refine (hall h 0 x o hreach hx hcls ⟨smallEnvironment, none, .numeric⟩ .nan _ (by simp)).mpr ?_
  intro e he
  exact renders_of_plainNumber (hplain e ((ahead_suffix o _).mem he))

/-- A string that is a quote. -/
def quoteSample : DataSample := ⟨double 1, .string ⟨[quote], by decide, by decide⟩, [], 0⟩

theorem rendering_iff_fails : ¬ ConvertsWell printingPlatform quoteSample 10 := by
  rw [convertsWell_iff printsLf_printingPlatform]
  rintro (hlong | hplain)
  · exact absurd hlong (by decide)
  · exact absurd rfl hplain.1.head_ne_quote

end MangOH.DataHub
