import MangOH.DataHub.Criteria

/-! The numbers in a sample buffer, and what the queries and transforms compute from them. -/
namespace MangOH.DataHub

open Outcome

variable {P : Platform} {env : Environment} {o o' : Observation} {s : DataSample} {t : DataType}
  {start : Double} {l : List DataSample}

/-- The numbers among samples, less NaNs; Booleans count as 0 and 1. -/
def numbersOf (l : List DataSample) : List Double :=
  (l.filterMap fun s => s.value.number).filter fun d => !d.isNaN

/-- The samples that a query visits. -/
def Observation.samplesFrom (P : Platform) (env : Environment) (o : Observation) (start : Double) :
    List DataSample :=
  (findBufferEntry P env o start).map (·.sampleRef)

theorem samplesFrom_nan : o.samplesFrom P env .nan = o.samples := rfl

theorem samplesFrom_subset : ∀ s ∈ o.samplesFrom P env start, s ∈ o.samples := by
  intro s hs
  obtain ⟨e, he, rfl⟩ := List.mem_map.mp hs
  refine List.mem_map_of_mem ?_
  unfold findBufferEntry at he
  split at he
  · exact he
  · exact (List.dropWhile_sublist _).mem he

theorem getBufferedNumber_eq {e : BufferEntry} (hs : e.sampleRef.type = t)
    (ht : t = .numeric ∨ t = .boolean) :
    ∃ d, e.sampleRef.value.number = some d ∧ getBufferedNumber e t = .ok d := by
  obtain ⟨id, ts, v, u⟩ := e
  subst hs
  cases v with
  | numeric d => exact ⟨d, rfl, rfl⟩
  | boolean b => exact ⟨_, rfl, rfl⟩
  | trigger => exact ht.elim (fun h => by cases h) fun h => by cases h
  | string => exact ht.elim (fun h => by cases h) fun h => by cases h
  | json => exact ht.elim (fun h => by cases h) fun h => by cases h

theorem mapM_getBufferedNumber (ht : t = .numeric ∨ t = .boolean) (entries : List BufferEntry)
    (htyped : ∀ e ∈ entries, e.sampleRef.type = t) :
    entries.mapM (getBufferedNumber · t) =
      .ok ((entries.map (·.sampleRef)).filterMap fun s => s.value.number) := by
  induction entries with
  | nil => rfl
  | cons e entries ih =>
    obtain ⟨d, hnumber, hread⟩ := getBufferedNumber_eq (htyped e List.mem_cons_self) ht
    rw [List.mapM_cons, hread, ih fun e' he' => htyped e' (List.mem_cons_of_mem _ he'),
      List.map_cons,
      List.filterMap_cons, hnumber]
    rfl

/-- Samples of any other type have no numbers. -/
theorem numbersOf_eq_nil (ht : ¬ (t = .numeric ∨ t = .boolean)) (htyped : ∀ s ∈ l, s.type = t) :
    numbersOf l = [] := by
  have hnone : ∀ s ∈ l, s.value.number = none := by
    intro s hs
    have htype := htyped s hs
    obtain ⟨ts, v, u⟩ := s
    subst htype
    cases v with
    | numeric d => exact absurd (.inl rfl) ht
    | boolean b => exact absurd (.inr rfl) ht
    | trigger | string | json => rfl
  rw [numbersOf, List.filterMap_eq_nil_iff.mpr hnone]
  rfl

theorem bufferedNumbers_eq (hb : ∀ s ∈ o.samples, s.type = o.bufferedType) :
    bufferedNumbers P env o start = .ok (numbersOf (o.samplesFrom P env start)) := by
  have htyped : ∀ s ∈ o.samplesFrom P env start, s.type = o.bufferedType :=
    fun s hs => hb s (samplesFrom_subset s hs)
  unfold bufferedNumbers
  split
  · next hother =>
    rw [numbersOf_eq_nil (t := o.bufferedType) (by tauto) htyped]
    rfl
  · next hnumbers =>
    have hentries : ∀ e ∈ findBufferEntry P env o start, e.sampleRef.type = o.bufferedType :=
      fun e he => htyped _ (List.mem_map_of_mem he)
    rw [mapM_getBufferedNumber (by tauto) _ hentries]
    rfl

/-- What `obs_QueryMin` makes of numbers. -/
def smallest (numbers : List Double) : Double :=
  numbers.foldl (fun result value => if result.isNaN || value.lt result then value else result) .nan

/-- What `obs_QueryMax` makes of numbers. -/
def largest (numbers : List Double) : Double :=
  numbers.foldl (fun result value => if result.isNaN || result.lt value then value else result) .nan

/-- What `obs_QueryStdDev` makes of numbers, if there are any. -/
def deviation (P : Platform) (numbers : List Double) : Double :=
  let square (d : Double) : Double := P.mul (P.sub d (mean P numbers)) (P.sub d (mean P numbers))
  P.sqrt (P.div (numbers.foldl (fun sum d => P.add sum (square d)) .zero)
    (P.ofNat numbers.length))

/-- The query of a transform. -/
def aggregate (P : Platform) (transformType : TransformType) (numbers : List Double) : Double :=
  match transformType with
  | .none => .nan
  | .mean => if numbers.isEmpty then .nan else mean P numbers
  | .stddev => if numbers.isEmpty then .nan else deviation P numbers
  | .max => largest numbers
  | .min => smallest numbers

section Queries

variable (hb : ∀ s ∈ o.samples, s.type = o.bufferedType)

include hb

theorem obsQueryMin_eq : obsQueryMin P env o start =
    .ok (aggregate P .min (numbersOf (o.samplesFrom P env start))) := by
  rw [obsQueryMin, bufferedNumbers_eq hb]
  rfl

theorem obsQueryMax_eq : obsQueryMax P env o start =
    .ok (aggregate P .max (numbersOf (o.samplesFrom P env start))) := by
  rw [obsQueryMax, bufferedNumbers_eq hb]
  rfl

theorem obsQueryMean_eq : obsQueryMean P env o start =
    .ok (aggregate P .mean (numbersOf (o.samplesFrom P env start))) := by
  rw [obsQueryMean, bufferedNumbers_eq hb]
  rfl

theorem obsQueryStdDev_eq : obsQueryStdDev P env o start =
    .ok (aggregate P .stddev (numbersOf (o.samplesFrom P env start))) := by
  rw [obsQueryStdDev, bufferedNumbers_eq hb]
  rfl

/-- A transform looks at the numbers in the buffer, whatever else is in it. -/
theorem obsApplyTransform_eq : obsApplyTransform P env o t s =
    if o.transformType = .none then .ok s
    else updateSample env s t (aggregate P o.transformType (numbersOf o.samples)) := by
  have hall : ∀ tt, aggregate P tt (numbersOf (o.samplesFrom P env .nan)) =
      aggregate P tt (numbersOf o.samples) := fun tt => by rw [samplesFrom_nan]
  unfold obsApplyTransform
  cases o.transformType with
  | none => rfl
  | mean => rw [obsQueryMean_eq hb, hall]; rfl
  | stddev => rw [obsQueryStdDev_eq hb, hall]; rfl
  | max => rw [obsQueryMax_eq hb, hall]; rfl
  | min => rw [obsQueryMin_eq hb, hall]; rfl

end Queries

end MangOH.DataHub
