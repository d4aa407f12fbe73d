import Mathlib.Algebra.Order.BigOperators.Group.List
import MangOH.Lib.Extremum
import MangOH.DataHub.Rationals
import MangOH.DataHub.ReadAfter
import MangOH.DataHub.Statistics

/-! What the queries for the minimum, the maximum and the mean say about a span of time. -/
namespace MangOH.DataHub

open Extremum

variable {P : Platform} {env : Environment} {o : Observation} {start : Double} {h : Hub}
  {r : ResRef} {x : Resource} {numbers : List Double}

/-- The time that a start stands for. -/
def resolvedStart (P : Platform) (env : Environment) (start : Double) : Double :=
  if start.le .thirtyYears then P.sub env.now start else start

/-- The buffered samples at or after a start, or all of them. -/
def Observation.span (P : Platform) (env : Environment) (o : Observation) (start : Double) :
    List DataSample :=
  if start.isNaN then o.samples
  else o.samples.filter fun s => (resolvedStart P env start).le s.timestamp

/-- The numbers in a span. -/
abbrev Observation.spanNumbers (P : Platform) (env : Environment) (o : Observation)
    (start : Double) : List Double := numbersOf (o.span P env start)

/-- The mean of these numbers is computed without rounding: every addition is exact, the number of
them is, and the division is. -/
structure Platform.ExactMean (P : Platform) (numbers : List Double) : Prop where
  finite : ∀ d ∈ numbers, d.isFinite = true
  add : ∀ l d l', numbers = l ++ d :: l' → (P.add (l.foldl P.add .zero) d).isFinite = true ∧
    (P.add (l.foldl P.add .zero) d).toRat = (l.foldl P.add .zero).toRat + d.toRat
  count : (P.ofNat numbers.length).IsNat numbers.length
  div : (P.div (numbers.foldl P.add .zero) (P.ofNat numbers.length)).isFinite = true ∧
    (P.div (numbers.foldl P.add .zero) (P.ofNat numbers.length)).toRat =
      (numbers.foldl P.add .zero).toRat / (P.ofNat numbers.length).toRat

/-- The mean of numbers. -/
def exactMean (numbers : List Double) : ℚ := (numbers.map Double.toRat).sum / numbers.length

/-- The queries answer with the least and the greatest of the numbers in the span and with their
mean, and with NaN when there are none. -/
structure SpanStatistics (P : Platform) (env : Environment) (o : Observation) (start : Double) :
    Prop where
  min : ∃ d, obsQueryMin P env o start = .ok d ∧
    (d.isNaN = true ↔ o.spanNumbers P env start = []) ∧
    (o.spanNumbers P env start ≠ [] → d ∈ o.spanNumbers P env start ∧
      ∀ v ∈ o.spanNumbers P env start, d.le v = true)
  max : ∃ d, obsQueryMax P env o start = .ok d ∧
    (d.isNaN = true ↔ o.spanNumbers P env start = []) ∧
    (o.spanNumbers P env start ≠ [] → d ∈ o.spanNumbers P env start ∧
      ∀ v ∈ o.spanNumbers P env start, v.le d = true)
  mean : P.ExactMean (o.spanNumbers P env start) → ∃ d, obsQueryMean P env o start = .ok d ∧
    (d.isNaN = true ↔ o.spanNumbers P env start = []) ∧
    (o.spanNumbers P env start ≠ [] →
      d.isFinite = true ∧ d.toRat = exactMean (o.spanNumbers P env start))
  between : P.ExactMean (o.spanNumbers P env start) → o.spanNumbers P env start ≠ [] →
    ∀ least mean greatest, obsQueryMin P env o start = .ok least →
      obsQueryMean P env o start = .ok mean → obsQueryMax P env o start = .ok greatest →
      least.le mean = true ∧ mean.le greatest = true
  other : o.bufferedType ≠ .numeric → o.bufferedType ≠ .boolean →
    obsQueryMin P env o start = .ok .nan ∧ obsQueryMax P env o start = .ok .nan ∧
      obsQueryMean P env o start = .ok .nan

/-! ### The samples that a query visits -/

/-- Where a property holds on from some element, the elements with it are those from there on. -/
theorem dropWhile_eq_filter {α : Type} {p : α → Bool} {l : List α}
    (h : l.Pairwise fun a b => p a = true → p b = true) :
    l.dropWhile (fun a => !p a) = l.filter p := by
  induction l with
  | nil => rfl
  | cons a l ih =>
    obtain ⟨ha, hl⟩ := List.pairwise_cons.mp h
    cases hp : p a with
    | false =>
      rw [List.dropWhile_cons_of_pos (by simp [hp]), ih hl, List.filter_cons_of_neg (by simp [hp])]
    | true =>
      rw [List.dropWhile_cons_of_neg (by simp [hp]), List.filter_cons_of_pos hp,
        List.filter_eq_self.mpr fun b hb => ha b hb hp]

theorem samplesFrom_eq_span (hb : o.BufferOk)
    (hnum : ∀ s ∈ o.samples, s.timestamp.isNaN = false) :
    o.samplesFrom P env start = o.span P env start := by
  unfold Observation.samplesFrom Observation.span findBufferEntry
  cases hstart : start.isNaN with
  | true => rfl
  | false =>
    simp only [Bool.false_eq_true, if_false]
    have hordered := ordered_of_bufferOk hb hnum
    rw [← dropWhile_eq_filter]
    · rw [Observation.samples, List.dropWhile_map]
      rfl
    · refine hordered.imp fun {a b} hab ha => ?_
      obtain ⟨hn, _, hle⟩ := Double.le_eq_true.mp ha
      obtain ⟨_, hn', hle'⟩ := Double.le_eq_true.mp hab
      exact Double.le_eq_true.mpr ⟨hn, hn', Int.le_trans hle hle'⟩

theorem isNaN_numbersOf {l : List DataSample} : ∀ d ∈ numbersOf l, d.isNaN = false := by
  intro d hd
  simpa using (List.mem_filter.mp hd).2

/-! ### The least and the greatest number -/

theorem ranks_lt : Ranks Double.isNaN fun a b => a.lt b where
  irrefl a := by
    cases h : a.lt a with
    | false => rfl
    | true => exact absurd (Double.lt_eq_true.mp h).2.2 (Int.lt_irrefl _)
  asymm := Double.lt_asymm
  trans a b c ha hb hc hab hbc := by
    rw [Double.not_lt_iff ha hb] at hab
    rw [Double.not_lt_iff hb hc] at hbc
    exact (Double.not_lt_iff ha hc).mpr (Int.le_trans hbc hab)

theorem ranks_gt : Ranks Double.isNaN fun a b => b.lt a where
  irrefl a := ranks_lt.irrefl a
  asymm a b := Double.lt_asymm b a
  trans a b c ha hb hc hab hbc := ranks_lt.trans c b a hc hb ha hbc hab

section Numbers

variable (hnumbers : ∀ d ∈ numbers, d.isNaN = false)

include hnumbers

theorem smallest_spec (hne : numbers ≠ []) :
    smallest numbers ∈ numbers ∧ ∀ v ∈ numbers, (smallest numbers).le v = true := by
  obtain ⟨hmem, hleast⟩ := best_spec ranks_lt Double.isNaN_nan hne hnumbers
  refine ⟨hmem, fun v hv => ?_⟩
  exact (Double.lt_eq_false_iff (hnumbers v hv) (hnumbers _ hmem)).mp (hleast v hv)

theorem largest_spec (hne : numbers ≠ []) :
    largest numbers ∈ numbers ∧ ∀ v ∈ numbers, v.le (largest numbers) = true := by
  obtain ⟨hmem, hgreatest⟩ := best_spec ranks_gt Double.isNaN_nan hne hnumbers
  refine ⟨hmem, fun v hv => ?_⟩
  exact (Double.lt_eq_false_iff (hnumbers _ hmem) (hnumbers v hv)).mp (hgreatest v hv)

theorem isNaN_smallest : (smallest numbers).isNaN = true ↔ numbers = [] := by
  constructor
  · intro hnan
    by_contra hne
    rw [hnumbers _ (smallest_spec hnumbers hne).1] at hnan
    cases hnan
  · rintro rfl
    exact Double.isNaN_nan

theorem isNaN_largest : (largest numbers).isNaN = true ↔ numbers = [] := by
  constructor
  · intro hnan
    by_contra hne
    rw [hnumbers _ (largest_spec hnumbers hne).1] at hnan
    cases hnan
  · rintro rfl
    exact Double.isNaN_nan

end Numbers

/-! ### The mean -/

/-- Without rounding, the loop adds up what the numbers stand for. -/
theorem toRat_sum (hexact : P.ExactMean numbers) : ∀ l l', numbers = l ++ l' →
    (l.foldl P.add .zero).toRat = (l.map Double.toRat).sum := by
  intro l
  induction l using List.reverseRecOn with
  | nil =>
    intro l' _
    have hzero : Double.zero.scaled = 0 := by decide
    simp [Double.toRat, hzero]
  | append_singleton l d ih =>
    intro l' heq
    rw [List.append_assoc] at heq
    have hadd := (hexact.add l d l' heq).2
    rw [List.foldl_append, List.foldl_cons, List.foldl_nil, hadd, ih _ heq, List.map_append,
      List.sum_append, List.map_singleton, List.sum_singleton]

theorem mean_exact (hexact : P.ExactMean numbers) :
    (mean P numbers).isFinite = true ∧ (mean P numbers).toRat = exactMean numbers := by
  refine ⟨hexact.div.1, ?_⟩
  rw [mean, hexact.div.2, hexact.count.2, toRat_sum hexact numbers [] (List.append_nil _).symm,
    exactMean]

theorem exactMean_between (hne : numbers ≠ []) {least greatest : ℚ}
    (hleast : ∀ v ∈ numbers, least ≤ v.toRat) (hgreatest : ∀ v ∈ numbers, v.toRat ≤ greatest) :
    least ≤ exactMean numbers ∧ exactMean numbers ≤ greatest := by
  have hpos : (0 : ℚ) < numbers.length := Nat.cast_pos.mpr (List.length_pos_iff.mpr hne)
  have hlow : numbers.length • least ≤ (numbers.map Double.toRat).sum := by
    have hsum := List.card_nsmul_le_sum (numbers.map Double.toRat) least (by simpa using hleast)
    rwa [List.length_map] at hsum
  have hhigh : (numbers.map Double.toRat).sum ≤ numbers.length • greatest := by
    have hsum := List.sum_le_card_nsmul (numbers.map Double.toRat) greatest
      (by simpa using hgreatest)
    rwa [List.length_map] at hsum
  rw [nsmul_eq_mul] at hlow hhigh
  unfold exactMean
  constructor
  · rw [le_div_iff₀ hpos, mul_comm]
    exact hlow
  · rw [div_le_iff₀ hpos, mul_comm]
    exact hhigh

/-! ### Every buffer with a time on each sample -/

theorem spanStatistics_of_bufferOk (hb : o.BufferOk)
    (hnum : ∀ s ∈ o.samples, s.timestamp.isNaN = false) : SpanStatistics P env o start := by
  have hspan : o.samplesFrom P env start = o.span P env start := samplesFrom_eq_span hb hnum
  have hmin : obsQueryMin P env o start = .ok (smallest (o.spanNumbers P env start)) := by
    rw [obsQueryMin_eq hb.typed, hspan]
    rfl
  have hmax : obsQueryMax P env o start = .ok (largest (o.spanNumbers P env start)) := by
    rw [obsQueryMax_eq hb.typed, hspan]
    rfl
  have hmean : obsQueryMean P env o start = .ok (if (o.spanNumbers P env start).isEmpty then .nan
      else mean P (o.spanNumbers P env start)) := by
    rw [obsQueryMean_eq hb.typed, hspan]
    rfl
  have hnumbers : ∀ d ∈ o.spanNumbers P env start, d.isNaN = false := isNaN_numbersOf
  have htyped : ∀ s ∈ o.span P env start, s.type = o.bufferedType := fun s hs =>
    hb.typed s (samplesFrom_subset s (hspan ▸ hs))
  generalize hn : o.spanNumbers P env start = numbers at *
  constructor
  case min =>
    rw [hn]
    exact ⟨_, hmin, isNaN_smallest hnumbers, smallest_spec hnumbers⟩
  case max =>
    rw [hn]
    exact ⟨_, hmax, isNaN_largest hnumbers, largest_spec hnumbers⟩
  case mean =>
    rw [hn]
    intro hexact
    refine ⟨_, hmean, ?_, fun hne => ?_⟩
    · cases numbers with
      | nil => exact iff_of_true Double.isNaN_nan rfl
      | cons d numbers =>
        rw [List.isEmpty_cons]
        simp only [Bool.false_eq_true, if_false]
        rw [Double.isNaN_of_isFinite (mean_exact hexact).1]
        simp
    · rw [if_neg (by simpa using hne)]
      exact mean_exact hexact
  case between =>
    rw [hn]
    intro hexact hne least d greatest hleast hd hgreatest
    obtain ⟨hmem, hle⟩ := smallest_spec hnumbers hne
    obtain ⟨hmem', hle'⟩ := largest_spec hnumbers hne
    rw [hmin] at hleast
    rw [hmean, if_neg (by simpa using hne)] at hd
    rw [hmax] at hgreatest
    cases hleast
    cases hd
    cases hgreatest
    obtain ⟨hfinite, hvalue⟩ := mean_exact hexact
    have hnan := Double.isNaN_of_isFinite hfinite
    obtain ⟨hlow, hhigh⟩ := exactMean_between hne
      (fun v hv => (Double.le_iff_toRat (hnumbers _ hmem) (hnumbers v hv)).mp (hle v hv))
      (fun v hv => (Double.le_iff_toRat (hnumbers v hv) (hnumbers _ hmem')).mp (hle' v hv))
    rw [← hvalue] at hlow hhigh
    exact ⟨(Double.le_iff_toRat (hnumbers _ hmem) hnan).mpr hlow,
      (Double.le_iff_toRat hnan (hnumbers _ hmem')).mpr hhigh⟩
  case other =>
    intro hnumeric hboolean
    have hnil : numbers = [] := by
      rw [← hn]
      exact numbersOf_eq_nil (by tauto) htyped
    subst hnil
    exact ⟨hmin, hmax, hmean⟩

/-- In every state of the hub, the queries about an Observation whose samples all have a time are
right, from whatever start. -/
theorem spanStatistics (hr : Reachable P h) (hx : h.resources r = some x)
    (ho : x.cls = .observation o) (hnum : ∀ s ∈ o.samples, s.timestamp.isNaN = false)
    (env : Environment) (start : Double) : SpanStatistics P env o start := by
  obtain ⟨log, hlog, _⟩ := observation_reachable (fun _ => True) hr (fun _ _ _ => trivial) hx ho
  exact spanStatistics_of_bufferOk hlog.bufferOk hnum

/-- Three numbers, of which the last two are not more than five seconds old. -/
def threeNumbersRun : List Op :=
  [.adminCreateObs (ascii "o"),
   .adminSetBufferMaxCount (ascii "o") 3,
   .adminPush (ascii "/obs/o") (double 40) (.numeric (double 9)),
   .adminPush (ascii "/obs/o") (double 46) (.numeric (double 2)),
   .adminPush (ascii "/obs/o") (double 48) (.numeric (double 4))]

theorem exactMean_twoFour : smallPlatform.ExactMean [double 2, double 4] := by
  have hnat : ∀ n, n < 100 → (double n).isFinite = true ∧ (double n).toRat = n := fun n hn =>
    isNat_double (Nat.lt_trans hn (by decide))
  have hfirst : smallPlatform.add .zero (double 2) = double 2 := by decide
  have hsecond : smallPlatform.add (double 2) (double 4) = double 6 := by decide
  have hmean : smallPlatform.div (double 6) (double 2) = double 3 := by decide
  have hzero : Double.zero = double 0 := by decide
  refine ⟨?_, ?_, (hnat 2 (by decide)), ?_⟩
  · intro d hd
    rcases List.mem_cons.mp hd with rfl | hd
    · exact (hnat 2 (by decide)).1
    · rw [List.mem_singleton.mp hd]
      exact (hnat 4 (by decide)).1
  · intro l d l' heq
    rcases l with _ | ⟨a, _ | ⟨b, l⟩⟩
    · cases heq
      rw [List.foldl_nil, hfirst, hzero, (hnat 2 (by decide)).2, (hnat 0 (by decide)).2]
      exact ⟨(hnat 2 (by decide)).1, by norm_num⟩
    · cases heq
      rw [List.foldl_cons, List.foldl_nil, hfirst, hsecond, (hnat 6 (by decide)).2,
        (hnat 2 (by decide)).2, (hnat 4 (by decide)).2]
      exact ⟨(hnat 6 (by decide)).1, by norm_num⟩
    · simp at heq
  · have hcount : smallPlatform.ofNat [double 2, double 4].length = double 2 := rfl
    rw [List.foldl_cons, List.foldl_cons, List.foldl_nil, hfirst, hsecond, hcount, hmean,
      (hnat 3 (by decide)).2, (hnat 6 (by decide)).2, (hnat 2 (by decide)).2]
    exact ⟨(hnat 3 (by decide)).1, by norm_num⟩

theorem spanStatistics_threeNumbersRun : ∃ h x o, Reachable smallPlatform h ∧
    h.resources 0 = some x ∧ x.cls = .observation o ∧
    o.spanNumbers smallPlatform smallEnvironment (double 5) = [double 2, double 4] ∧
    smallPlatform.ExactMean (o.spanNumbers smallPlatform smallEnvironment (double 5)) ∧
    SpanStatistics smallPlatform smallEnvironment o (double 5) := by
  have hrun : smallRunEnds threeNumbersRun (fun h => (h.observation 0).any fun o =>
      o.samples.all (fun s => !s.timestamp.isNaN) &&
        o.spanNumbers smallPlatform smallEnvironment (double 5) = [double 2, double 4]) = true := by
    decide +kernel
  obtain ⟨h, hr, hp⟩ := exists_of_smallRunEnds hrun
  obtain ⟨o, ho, hsamples⟩ := (Option.any_eq_true _ _).mp hp
  obtain ⟨x, hx, hcls⟩ := observation_eq_some ho
  rw [Bool.and_eq_true, List.all_eq_true, decide_eq_true_eq] at hsamples
  obtain ⟨hnum, hspan⟩ := hsamples
  refine ⟨h, x, o, hr, hx, hcls, hspan, hspan ▸ exactMean_twoFour, ?_⟩
  exact spanStatistics hr hx hcls (fun s hs => by simpa using hnum s hs) smallEnvironment (double 5)

/-- A sample without a time, and an old one behind it. -/
def timelessRun : List Op :=
  [.adminCreateObs (ascii "o"),
   .adminSetBufferMaxCount (ascii "o") 3,
   .adminPush (ascii "/obs/o") (double 46) (.numeric (double 2)),
   .adminPush (ascii "/obs/o") .nan (.numeric (double 4)),
   .adminPush (ascii "/obs/o") (double 20) (.numeric (double 9))]

/-- Behind a sample without a time, samples from before the start are counted. -/
theorem spanStatistics_fails : ∃ h x o, Reachable smallPlatform h ∧ h.resources 0 = some x ∧
    x.cls = .observation o ∧ ¬ SpanStatistics smallPlatform smallEnvironment o (double 5) := by
  have hrun : smallRunEnds timelessRun (fun h => (h.observation 0).any fun o =>
      (obsQueryMax smallPlatform smallEnvironment o (double 5)).toOption = some (double 9) &&
        o.spanNumbers smallPlatform smallEnvironment (double 5) = [double 2]) = true := by
    decide +kernel
  obtain ⟨h, hr, hp⟩ := exists_of_smallRunEnds hrun
  obtain ⟨o, ho, hqueries⟩ := (Option.any_eq_true _ _).mp hp
  obtain ⟨x, hx, hcls⟩ := observation_eq_some ho
  rw [Bool.and_eq_true, decide_eq_true_eq, decide_eq_true_eq] at hqueries
  obtain ⟨hmax, hspan⟩ := hqueries
  refine ⟨h, x, o, hr, hx, hcls, fun hstatistics => ?_⟩
  obtain ⟨d, hd, -, hgreatest⟩ := hstatistics.max
  rw [hd] at hmax
  rw [hspan] at hgreatest
  have hmem := (hgreatest (by simp)).1
  rw [List.mem_singleton.mp hmem] at hmax
  exact absurd hmax (by decide)

end MangOH.DataHub
