import MangOH.DataHub.Settings

/-! Payloads are read at the type they were created with: the samples, the buffers and what
`res_Push` does to one resource. -/
namespace MangOH.DataHub

open Outcome

variable {P : Platform} {env : Environment} {s : DataSample} {t toType fromType : DataType}
  {B : Fault → Prop}

/-- The faults that the hub is proved never to run into. -/
def Bad : Fault → Prop
  | .typeConfusion | .entryAssertion | .routeAssertion => True
  | _ => False

/-- The faults that samples of the right types do not lead to. -/
def NotFatal (f : Fault) : Prop := f ≠ .fatal

/-- The texts that the platform makes fit data samples. -/
structure Platform.Fits (P : Platform) : Prop where
  jsonExtract : ∀ json spec t result,
    P.jsonExtract json spec = some (t, result) → result.length ≤ ioMaxStringValueLen
  pointer : P.sizeofPointer ≤ ioMaxStringValueLen

theorem fits_of_notFatal {p : Prop} (hf : NotFatal .fatal) : p := absurd rfl hf

theorem notFatal_of_bad (f : Fault) (hf : Bad f) : NotFatal f := by
  rintro rfl
  exact hf

@[simp] theorem type_createSample (ts : Double) (v : Value) :
    (createSample env ts v).type = v.type := rfl

@[simp] theorem type_setVia (u : CString) : ({ s with via := u } : DataSample).type = s.type := rfl

@[simp] theorem type_setTimestamp (ts : Double) : (dataSampleSetTimestamp s ts).type = s.type := rfl

@[simp] theorem type_createTrigger (ts : Double) :
    (dataSampleCreateTrigger env ts).type = .trigger := rfl

@[simp] theorem type_createBoolean (ts : Double) (b : Bool) :
    (dataSampleCreateBoolean env ts b).type = .boolean := rfl

@[simp] theorem type_createNumeric (ts d : Double) :
    (dataSampleCreateNumeric env ts d).type = .numeric := rfl

theorem length_cString_le (b : Bytes) : (cString b).length ≤ b.length :=
  (List.takeWhile_sublist _).length_le

section Texts

variable {b : Bytes} (hB : B .fatal → b.length ≤ ioMaxStringValueLen)

include hB

theorem sat_textOf : Sat B (textOf b) fun _ => True := by
  unfold textOf
  split
  · exact trivial
  · next hlong => exact fun hf => hlong (Nat.le_trans (length_cString_le b) (hB hf))

theorem sat_createString (ts : Double) :
    Sat B (dataSampleCreateString env ts b) fun s => s.type = .string :=
  (sat_textOf hB).bind fun _ _ => rfl

theorem sat_createJson (ts : Double) :
    Sat B (dataSampleCreateJson env ts b) fun s => s.type = .json :=
  (sat_textOf hB).bind fun _ _ => rfl

end Texts

theorem sat_getBoolean (h : s.type = .boolean) : Sat B (dataSampleGetBoolean s) fun _ => True := by
  obtain ⟨ts, v, u⟩ := s
  cases v <;> simp_all [DataSample.type, Value.type, dataSampleGetBoolean]

theorem sat_getNumeric (h : s.type = .numeric) : Sat B (dataSampleGetNumeric s) fun _ => True := by
  obtain ⟨ts, v, u⟩ := s
  cases v <;> simp_all [DataSample.type, Value.type, dataSampleGetNumeric]

theorem sat_getText (h : s.type = t) (ht : t = .string ∨ t = .json) :
    Sat B (dataSampleGetText t s) fun text => text.length ≤ ioMaxStringValueLen := by
  obtain ⟨ts, v, u⟩ := s
  rcases ht with rfl | rfl
  · cases v with
    | string text => exact text.bounded
    | _ => cases h
  · cases v with
    | json text => exact text.bounded
    | _ => cases h

theorem sat_convertToJson (h : s.type = t) (size : Nat) :
    Sat B (dataSampleConvertToJson P s t size) fun _ => True := by
  cases t with
  | trigger => exact trivial
  | boolean => exact (sat_getBoolean h).bind fun _ _ => trivial
  | numeric => exact (sat_getNumeric h).bind fun _ _ => trivial
  | string => exact (sat_getText h (.inl rfl)).bind fun _ _ => trivial
  | json => exact (sat_getText h (.inr rfl)).bind fun _ _ => trivial

theorem sat_convertToString (h : s.type = t) (size : Nat) :
    Sat B (dataSampleConvertToString P s t size) fun _ => True := by
  unfold dataSampleConvertToString
  split
  · exact (sat_getText (h.trans ‹_›) (.inl rfl)).bind fun _ _ => trivial
  · exact sat_convertToJson h size

theorem sat_extractJson (hB : B .fatal → P.Fits) (h : s.type = .json) (spec : CString) :
    Sat B (dataSampleExtractJson P env s spec)
      fun e => ∀ t s', e = some (t, s') → s'.type = t := by
  refine (sat_getText h (.inr rfl)).bind fun json _ => ?_
  split
  case h_5 result hex =>
    have hlen := fun hf => (hB hf).jsonExtract _ _ _ _ hex
    exact (sat_createString hlen _).bind fun s' hs => by simp_all
  case h_6 result hex =>
    have hlen := fun hf => (hB hf).jsonExtract _ _ _ _ hex
    exact (sat_createJson hlen _).bind fun s' hs => by simp_all
  case h_7 result hex =>
    have hlen := fun hf => (hB hf).jsonExtract _ _ _ _ hex
    exact (sat_createJson hlen _).bind fun s' hs => by simp_all
  all_goals simp

theorem length_formatNumeric (d : Double) : (formatNumeric P d).length ≤ ioMaxStringValueLen := by
  unfold formatNumeric
  dsimp only
  split
  · next hlt => exact Nat.le_of_lt_succ hlt
  · exact Nat.zero_le _

theorem length_quoteString (hP : P.Fits) (text : CString) :
    (quoteString P text).length ≤ ioMaxStringValueLen := by
  unfold quoteString
  dsimp only
  split
  · next hlt => exact Nat.le_of_lt_succ hlt
  · exact Nat.le_trans (List.length_take_le _ _) hP.pointer

theorem length_boolean (b : Bool) :
    (ascii (if b then "true" else "false")).length ≤ ioMaxStringValueLen := by
  cases b <;> decide

theorem length_null : (ascii "null").length ≤ ioMaxStringValueLen := by decide

theorem sat_coercedSample (hB : B .fatal → P.Fits) (h : s.type = fromType)
    (hne : fromType ≠ toType) :
    Sat B (coercedSample P env toType fromType s) fun s' => s'.type = toType := by
  cases toType with
  | trigger => rfl
  | boolean =>
    cases fromType with
    | trigger => rfl
    | boolean => exact absurd rfl hne
    | numeric => exact (sat_getNumeric h).bind fun _ _ => rfl
    | string => exact (sat_getText h (.inl rfl)).bind fun _ _ => rfl
    | json => exact (sat_getText h (.inr rfl)).bind fun _ _ => rfl
  | numeric =>
    cases fromType with
    | trigger => rfl
    | boolean => exact (sat_getBoolean h).bind fun _ _ => rfl
    | numeric => exact absurd rfl hne
    | string => exact (sat_getText h (.inl rfl)).bind fun _ _ => rfl
    | json => exact (sat_getText h (.inr rfl)).bind fun _ _ => rfl
  | string =>
    cases fromType with
    | trigger => exact sat_createString (fun _ => Nat.zero_le _) _
    | boolean =>
      exact (sat_getBoolean h).bind fun b _ => sat_createString (fun _ => length_boolean b) _
    | numeric =>
      exact (sat_getNumeric h).bind fun d _ => sat_createString (fun _ => length_formatNumeric d) _
    | string => exact absurd rfl hne
    | json => exact (sat_getText h (.inr rfl)).bind fun _ hlen => sat_createString (fun _ => hlen) _
  | json =>
    cases fromType with
    | trigger => exact sat_createJson (fun _ => length_null) _
    | boolean =>
      exact (sat_getBoolean h).bind fun b _ => sat_createJson (fun _ => length_boolean b) _
    | numeric =>
      exact (sat_getNumeric h).bind fun d _ => sat_createJson (fun _ => length_formatNumeric d) _
    | string =>
      exact (sat_getText h (.inl rfl)).bind fun text _ =>
        sat_createJson (fun hf => length_quoteString (hB hf) text) _
    | json => exact absurd rfl hne

theorem sat_doTypeCoercion (hB : B .fatal → P.Fits) (h : s.type = fromType) :
    Sat B (doTypeCoercion P env toType fromType s) fun s' =>
      s'.type = toType ∧ s'.via = s.via := by
  unfold doTypeCoercion
  split
  · exact ⟨h.trans ‹_›, rfl⟩
  · exact (sat_coercedSample hB h ‹_›).bind fun s' hs => ⟨hs, rfl⟩

theorem sat_createFromArgument (ts : Double) (a : Argument) :
    Sat NotFatal (createFromArgument env ts a) fun s => s.type = a.type ∧ s.via = [] := by
  cases a with
  | trigger => exact ⟨rfl, rfl⟩
  | boolean b => exact ⟨rfl, rfl⟩
  | numeric d => exact ⟨rfl, rfl⟩
  | string c => exact (sat_textOf fits_of_notFatal).bind fun _ _ => ⟨rfl, rfl⟩
  | json c => exact (sat_textOf fits_of_notFatal).bind fun _ _ => ⟨rfl, rfl⟩

end MangOH.DataHub
