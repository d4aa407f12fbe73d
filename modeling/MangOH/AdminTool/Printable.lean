import MangOH.AdminTool.Printing
import MangOH.DataHub.EntryPaths
import MangOH.DataHub.ReadOnly

/-! Which entries the tool can print. -/
namespace MangOH.AdminTool

open DataHub Outcome Transcript

variable {C : Console} {h : Hub} {e e' : EntryRef} {r : ResRef} {entry : Entry} {x : Resource}
  {path text : CString} {t : DataType} {fuel depth : Nat} {α : Type}

/-- The tool gives up by itself. -/
def GivesUp (stop : Stop) : Prop := stop = .exitFailure ∨ stop = .fatal

/-- The path of the resource's source fits the tool's buffer. -/
def SourceFits (h : Hub) (x : Resource) : Prop :=
  ∀ src y names, x.srcPtr = some src → h.resources src = some y →
    h.directory.Leads rootPtr names y.entryRef → (pathOf names).length ≤ ioMaxResourcePathLen

/-- A value that the administrator has set can be printed. -/
def CanShow (v : AdminValue) (x : Resource) : Prop :=
  v.value x ≠ none → v.type x ≠ .trigger

/-- The JSON extraction of an Observation below `/obs` leaves room for the terminator. -/
def ExtractionFits (path : CString) (x : Resource) : Prop :=
  ∀ o, x.cls = .observation o → underObs path = true →
    o.jsonExtraction.length < adminMaxJsonExtractorLen

/-- An entry can be printed. -/
structure Printable (h : Hub) (path : CString) (entry : Entry) : Prop where
  override : ∀ r x, entry.resourcePtr = some r → h.resources r = some x →
    CanShow .ofOverride x
  default : ∀ r x, entry.resourcePtr = some r → h.resources r = some x →
    CanShow .ofDefault x
  source : ∀ r x, entry.resourcePtr = some r → h.resources r = some x → SourceFits h x
  extraction : ∀ r x, entry.resourcePtr = some r → h.resources r = some x →
    ExtractionFits path x

/-! ### Requests -/

theorem prints_request {get : Hub → Except Fault (Hub × α)} {a : α} (hget : get h = .ok (h, a)) :
    Prints (request get) h [] (.ok a) := by
  refine prints_ask ?_
  rw [hget]
  rfl

theorem prints_look {get : Hub → Except Fault α} {a : α} (hget : get h = .ok a) :
    Prints (look get) h [] (.ok a) := by
  refine prints_request ?_
  rw [hget]
  rfl

theorem decides_print (text : CString) : Decides True GivesUp (print text) h :=
  (prints_say _).completes

theorem decides_complain (text : CString) : Decides True GivesUp (complain text) h :=
  (prints_say _).completes

theorem decides_indent (depth : Nat) : Decides True GivesUp (indent depth) h := decides_print _

theorem decides_double (label : CString) (value : Double) :
    Decides True GivesUp (printDoubleSetting C label value) h := by
  unfold printDoubleSetting
  split <;> exact decides_print _

/-- A buffer gets the whole path, or the result is `LE_OVERFLOW`. -/
theorem pathOut_cases {P : Platform} {names : List CString} {size : Nat} (ht : TreeOk P h)
    (hl : h.directory.Leads rootPtr names e) (hsize : 0 < size) : pathOut P h size e =
      .ok (if (pathOf names).length < size then .ok (pathOf names) else .error .overflow) := by
  split
  · next hfit => exact pathOut_eq ht hl hfit
  · next hlong =>
    have hle : size ≤ ([] : CString).length + (pathTexts names).flatten.length := by
      rw [flatten_pathTexts, List.length_nil, Nat.zero_add]
      exact Nat.le_of_not_lt hlong
    have hne : pathTexts names ≠ [] := by
      intro hnil
      rw [hnil, List.flatten_nil, List.length_nil] at hle
      omega
    have hover : (addTexts P size [] (pathTexts names)).2 = .error .overflow :=
      addTexts_overflow hne hle
    rw [pathOut, getAbsolutePath_eq ht hl (Nat.lt_succ_self e), ok_bind, hover]
    rfl

theorem allThere_of_leads {P : Platform} {names : List CString}
    (hl : h.directory.Leads e names e') : AllThere P h names e := by
  induction hl with
  | here => exact trivial
  | @child e c x n m name names hn hc hm hname hl ih =>
    exact .inr ⟨c, .child hn hc hm hname (.here c), ih⟩

/-- An Observation that is found is read, and nothing changes. -/
theorem getFrom_ends {obs : Option EntryRef} (hwf : WellFormed h)
    (hobs : ∀ e, obs = some e → h.IsObservation e) (unset : α) (get : Observation → α) :
    ∃ a, getFromObservation (.ok (h, obs)) unset get = .ok (h, a) := by
  unfold getFromObservation
  rw [ok_bind]
  cases obs with
  | none => exact ⟨unset, rfl⟩
  | some e =>
    obtain ⟨entry, he, htype⟩ := hobs e rfl
    obtain ⟨r, x, hattached, hx, o, hcls⟩ := hwf.observation he htype
    refine ⟨get o, ?_⟩
    dsimp only
    rw [hattached, ok_bind, getResource_ok.mpr hx, ok_bind, hcls]
    rfl

theorem isObservation_iff {et : EntryType} (hcls : ClassOk et x.cls) :
    et = .observation ↔ ∃ o, x.cls = .observation o := by
  cases hc : x.cls with
  | observation o =>
    rw [hc] at hcls
    cases et <;> simp_all [ClassOk]
  | placeholder | ioPoint =>
    rw [hc] at hcls
    cases et <;> simp_all [ClassOk]

/-! ### Values that are set -/

theorem ofType_found {v : AdminValue} {s : DataSample} (hv : v.TypedIn x)
    (hs : v.value x = some s) (hvt : v.type x = t) : v.ofType t x = some s ∧ s.type = t :=
  ⟨by rw [AdminValue.ofType, hs]; simp [hvt], (hv s hs).trans hvt⟩

theorem shown_none {v : AdminValue} (hnone : v.value x = none) : CanShow v x :=
  fun hsome => absurd hnone hsome

theorem shown_some {v : AdminValue} {s : DataSample} (hs : v.value x = some s) :
    v.type x ≠ .trigger ↔ CanShow v x := by
  unfold CanShow
  rw [hs]
  simp

/-! ### Answers about an entry that is found -/

section Found

variable (hfind : resTreeFindEntryAtAbsolutePath C.P h path = .ok (some e))

include hfind

theorem head_found : path.head? = some 0x2f := by
  unfold resTreeFindEntryAtAbsolutePath at hfind
  split at hfind
  · rfl
  · cases hfind

theorem obsRelative_found {rest : CString} (hs : Searchable C.P h)
    (hrel : obsRelative path = some rest) : FoundUnderObs h rest e ∧ underObs path = true := by
  rcases obsRelative_cases path with ⟨hnone, -⟩ | ⟨-, -, hslash⟩ | ⟨rest', rfl, hunder, hsome⟩
  · cases hnone.symm.trans hrel
  · exact absurd (head_found hfind) hslash
  · cases hsome.symm.trans hrel
    obtain ⟨found, hfound, hiff⟩ :=
      findEntry_spec hs.directory hs.exists_root (ascii "obs/" ++ rest)
    cases hfound.symm.trans hfind
    have hl := (hiff e).mp rfl
    rw [show pathElements (ascii "obs/" ++ rest) = pathElements (ascii "/obs/" ++ rest) from rfl,
      pathElements_underObs] at hl
    obtain ⟨ns, hns, hl⟩ := Directory.leads_cons.mp hl
    exact ⟨foundUnderObs_of_denotes hs (denotes_absolute.mpr ⟨ns, hns, hl⟩), hunder⟩

theorem findHarmless_found (hs : Searchable C.P h) : FindHarmless h path :=
  fun _ hrel => ⟨e, (obsRelative_found hfind hs hrel).1⟩

theorem setting_found (hwf : WellFormed h) (hs : Searchable C.P h) (unset : α)
    (get : Observation → α) :
    ∃ a, getFromObservation (adminFindObservation C.P h path) unset get = .ok (h, a) := by
  obtain ⟨obs, hobs, hall⟩ := findObservation_of_harmless hs (findHarmless_found hfind hs)
  rw [hobs]
  exact getFrom_ends hwf hall unset get

variable (he : h.entries e = some entry)

include he

theorem atEntry_found (none' : α) (read : Entry → Except Fault α) :
    atEntry C.P h path none' read = read entry := by
  rw [atEntry, hfind, ok_bind]
  dsimp only
  rw [getEntry_ok.mpr he, ok_bind]

theorem getHarmless_found (hs : Searchable C.P h) (htype : entry.type = .observation) :
    GetHarmless C.P h path := by
  intro rest hrel
  obtain ⟨⟨ns, hns, hl⟩, -⟩ := obsRelative_found hfind hs hrel
  refine ⟨ns, hns, .inr (allThere_of_leads hl), fun e' hl' => ?_⟩
  cases hs.directory.leads_unique hl hl'
  exact ⟨entry, he, by rw [htype]; simp, by rw [htype]; simp⟩

theorem transform_found (hwf : WellFormed h) (hs : Searchable C.P h)
    (htype : entry.type = .observation) :
    ∃ transform, adminGetTransform C.P C.hubFuel h path = .ok (h, transform) := by
  obtain ⟨obs, hobs, hall⟩ :=
    getObservation_of_harmless C.hubFuel hwf hs (getHarmless_found hfind he hs htype)
  rw [adminGetTransform, hobs]
  exact getFrom_ends hwf hall .none (·.transformType)

variable (hr : entry.resourcePtr = some r) (hx : h.resources r = some x)

include hr hx

theorem adminRead_found (none' : α) (read : Resource → Except Fault α) :
    adminRead C.P h path none' read = read x := by
  rw [adminRead, atEntry_found hfind he, hr]
  dsimp only
  rw [getResource_ok.mpr hx, ok_bind]

theorem queryRead_found (session : Nat) {read : Resource → Except Fault (GetResult α)}
    {result : GetResult α} (hread : read x = .ok result) :
    queryRead C.P h session path read = .ok (h, result) := by
  have hlookup : queryFindResource C.P h session path = .ok (h, some e) := by
    rw [queryFindResource, if_pos (head_found hfind), hfind]
    rfl
  unfold queryRead
  rw [hlookup, ok_bind]
  dsimp only
  rw [getEntry_ok.mpr he, ok_bind, hr]
  dsimp only
  rw [getResource_ok.mpr hx, ok_bind, hread]
  rfl

/-! ### Values -/

section Values

variable (hwf : WellFormed h) (ht : TreeOk C.P h) (htyped : Typed x)

include htyped

theorem queryGetJson_found (size : Nat) :
    ∃ result, queryGetJson C.P h C.session path size = .ok (h, result) := by
  cases hcur : x.currentValue with
  | none =>
    refine ⟨.error .unavailable, queryRead_found hfind he hr hx C.session ?_⟩
    rw [hcur]
    rfl
  | some s =>
    have hs := htyped.current s hcur
    have hends : Ends (if x.currentType = .json then do
        let value ← dataSampleGetJson s
        pure (copyOut size value)
      else jsonOut C.P s x.currentType size) := by
      split
      · next hjson => exact ends_getJson (hs.trans hjson) size
      · exact jsonOut_ends hs size
    obtain ⟨value, hvalue⟩ := hends
    refine ⟨value.map fun a => (dataSampleGetTimestamp s, a),
      queryRead_found hfind he hr hx C.session ?_⟩
    rw [hcur]
    dsimp only
    rw [if_neg (by simp), hvalue]
    rfl

include hwf ht

theorem decides_currentValue : Decides True GivesUp (printCurrentValue C path) h := by
  obtain ⟨result, hresult⟩ := queryGetJson_found hfind he hr hx htyped (ioMaxStringValueLen + 1)
  refine (prints_request hresult).decides ?_
  rcases result with (_ | _ | _ | _ | _) | ⟨timestamp, value⟩
  case error.unavailable =>
    obtain ⟨mandatory, hmandatory⟩ := adminIsMandatory_ends hwf ht.toSearchable path
    exact (prints_look hmandatory).decides (decides_print _)
  case ok => exact decides_print _
  all_goals exact decides_complain _

end Values

theorem queryGetDataType_found :
    queryGetDataType C.P h C.session path = .ok (h, .ok x.currentType) :=
  queryRead_found hfind he hr hx C.session rfl

theorem queryGetJsonExample_found (htyped : Typed x) (size : Nat) :
    ∃ result, queryGetJsonExample C.P h C.session path size = .ok (h, result) := by
  by_cases hjson : x.currentType = .json
  · cases hexample : x.jsonExample with
    | none =>
      refine ⟨.error .unavailable, queryRead_found hfind he hr hx C.session ?_⟩
      rw [if_neg (not_not.mpr hjson), hexample]
      rfl
    | some s =>
      obtain ⟨value, hvalue⟩ := ends_getJson (htyped.jsonExample s hexample) size
      refine ⟨value, queryRead_found hfind he hr hx C.session ?_⟩
      rw [if_neg (not_not.mpr hjson), hexample]
      exact hvalue
  · refine ⟨.error .unsupported, queryRead_found hfind he hr hx C.session ?_⟩
    rw [if_pos hjson]
    rfl

theorem decides_dataType (htyped : Typed x) (depth : Nat) :
    Decides True GivesUp (printDataType C path depth) h := by
  obtain ⟨result, hexample⟩ := queryGetJsonExample_found hfind he hr hx htyped ioMaxStringValueLen
  refine (prints_request (queryGetDataType_found hfind he hr hx)).decides ?_
  refine (decides_indent depth).andThen fun _ => (prints_request hexample).decides ?_
  cases result with
  | error => exact decides_print _
  | ok => exact decides_print _

theorem decides_units (depth : Nat) : Decides True GivesUp (printUnits C path depth) h := by
  have hunits : queryGetUnits C.P h C.session path (ioMaxUnitsNameLen + 1) =
      .ok (h, copyOut (ioMaxUnitsNameLen + 1) x.units) :=
    queryRead_found hfind he hr hx C.session rfl
  refine (prints_request hunits).decides ?_
  cases copyOut (ioMaxUnitsNameLen + 1) x.units with
  | error => exact decides_complain _
  | ok units =>
    dsimp only
    split
    · exact (prints_pure ()).completes
    · exact (decides_indent depth).andThen fun _ => decides_print _

/-! ### Values of the administrator -/

section AdminValues

variable {v : AdminValue} {s : DataSample} (hv : v.TypedIn x) (hs : v.value x = some s)

include hv hs

theorem adminGetBoolean_found (hvt : v.type x = .boolean) :
    ∃ value, adminGetBoolean C.P v h path = .ok value := by
  obtain ⟨hof, htype⟩ := ofType_found hv hs hvt
  obtain ⟨value, hvalue⟩ := Ends.of_sat (sat_getBoolean htype)
  refine ⟨value, ?_⟩
  rw [adminGetBoolean, adminRead_found hfind he hr hx, hof]
  exact hvalue

theorem adminGetNumeric_found (hvt : v.type x = .numeric) :
    ∃ value, adminGetNumeric C.P v h path = .ok value := by
  obtain ⟨hof, htype⟩ := ofType_found hv hs hvt
  obtain ⟨value, hvalue⟩ := Ends.of_sat (sat_getNumeric htype)
  refine ⟨value, ?_⟩
  rw [adminGetNumeric, adminRead_found hfind he hr hx, hof]
  exact hvalue

/-- The buffers of the tool have room for every string. -/
theorem adminGetString_found (hvt : v.type x = .string) :
    ∃ text, adminGetString C.P v h path (ioMaxStringValueLen + 1) = .ok (.ok text) := by
  obtain ⟨hof, htype⟩ := ofType_found hv hs hvt
  obtain ⟨text, htext, hlen⟩ := (sat_getText htype (.inl rfl)).exists_ok
  refine ⟨text, ?_⟩
  rw [adminGetString, adminRead_found hfind he hr hx, hof]
  dsimp only
  rw [dataSampleGetString, htext, ok_bind, copyOut, if_pos (Nat.lt_succ_of_le hlen)]
  rfl

theorem adminGetJson_found (hvt : v.type x = .json) :
    ∃ text, adminGetJson C.P v h path (ioMaxStringValueLen + 1) = .ok (.ok text) := by
  obtain ⟨-, htype⟩ := ofType_found hv hs hvt
  obtain ⟨text, htext, hlen⟩ := (sat_getText htype (.inr rfl)).exists_ok
  refine ⟨text, ?_⟩
  rw [adminGetJson, adminRead_found hfind he hr hx, hs, hvt]
  show jsonOut C.P s .json (ioMaxStringValueLen + 1) = _
  rw [jsonOut, dataSampleConvertToJson, dataSampleGetJson, htext, ok_bind,
    if_pos (Nat.lt_succ_of_le hlen)]
  rfl

theorem decides_value :
    Decides (v.type x ≠ .trigger) GivesUp (printValue C v (v.type x) path) h := by
  cases hvt : v.type x with
  | trigger => exact decides_throw (fun hne => hne rfl) (.inr rfl)
  | boolean =>
    obtain ⟨value, hvalue⟩ := adminGetBoolean_found hfind he hr hx hv hs hvt
    refine Decides.congr ((prints_look hvalue).decides (decides_print _)) ?_
    simp
  | numeric =>
    obtain ⟨value, hvalue⟩ := adminGetNumeric_found hfind he hr hx hv hs hvt
    refine Decides.congr ((prints_look hvalue).decides (decides_print _)) ?_
    simp
  | string =>
    obtain ⟨text, htext⟩ := adminGetString_found hfind he hr hx hv hs hvt
    refine Decides.congr ((prints_look htext).decides (decides_print _)) ?_
    simp
  | json =>
    obtain ⟨text, htext⟩ := adminGetJson_found hfind he hr hx hv hs hvt
    refine Decides.congr ((prints_look htext).decides (decides_print _)) ?_
    simp

end AdminValues

theorem adminHasValue_found (v : AdminValue) :
    adminHasValue C.P v h path = .ok (v.value x).isSome := by
  rw [adminHasValue, adminRead_found hfind he hr hx]
  rfl

theorem adminGetValueDataType_found {v : AdminValue} {s : DataSample} (hs : v.value x = some s) :
    adminGetValueDataType C.P v h path = .ok (v.type x) := by
  rw [adminGetValueDataType, adminRead_found hfind he hr hx, hs]
  rfl

theorem decides_override (htyped : Typed x) (depth : Nat) :
    Decides (CanShow .ofOverride x) GivesUp (printEntryOverride C path depth) h := by
  refine (prints_look (adminHasValue_found hfind he hr hx .ofOverride)).decides ?_
  cases hs : AdminValue.ofOverride.value x with
  | none => exact ((prints_pure ()).completes).congr (iff_of_true trivial (shown_none hs))
  | some s =>
    have hvalue := decides_value hfind he hr hx (typedIn_ofOverride htyped) hs
    have hoverride : Decides (CanShow .ofOverride x) GivesUp (printOverride C path) h := by
      refine (prints_request (queryGetDataType_found hfind he hr hx)).decides ?_
      refine (prints_look (adminGetValueDataType_found hfind he hr hx hs)).decides ?_
      refine (hvalue.congr (shown_some hs)).before fun _ => ?_
      split
      · exact decides_print _
      · exact (prints_pure ()).completes
    refine (decides_indent depth).andThen fun _ => (decides_print _).andThen fun _ => ?_
    exact hoverride.before fun _ => decides_print _

theorem decides_default (htyped : Typed x) (depth : Nat) :
    Decides (CanShow .ofDefault x) GivesUp (printEntryDefault C path depth) h := by
  refine (prints_look (adminHasValue_found hfind he hr hx .ofDefault)).decides ?_
  cases hs : AdminValue.ofDefault.value x with
  | none => exact ((prints_pure ()).completes).congr (iff_of_true trivial (shown_none hs))
  | some s =>
    have hvalue := decides_value hfind he hr hx (typedIn_ofDefault htyped) hs
    have hdefault : Decides (CanShow .ofDefault x) GivesUp (printDefault C path) h :=
      (prints_look (adminGetValueDataType_found hfind he hr hx hs)).decides
        (hvalue.congr (shown_some hs))
    refine (decides_indent depth).andThen fun _ => (decides_print _).andThen fun _ => ?_
    exact hdefault.before fun _ => decides_print _

/-! ### The source -/

theorem decides_source (hwf : WellFormed h) (ht : TreeOk C.P h) (depth : Nat)
    (entryType : EntryType) :
    Decides (SourceFits h x) GivesUp (printEntrySource C path depth entryType) h := by
  cases hsrc : x.srcPtr with
  | none =>
    have hread : adminGetSource C.P h path (ioMaxResourcePathLen + 1) = .ok (.error .notFound) := by
      rw [adminGetSource, adminRead_found hfind he hr hx, hsrc]
      rfl
    refine (prints_look hread).decides ?_
    refine (prints_pure ()).completes.congr (iff_of_true trivial fun src y names hsome => ?_)
    rw [hsrc] at hsome
    cases hsome
  | some src =>
    obtain ⟨y, hy⟩ := (exists_of_route hwf ((src_of_resource hx).trans hsrc)).1
    obtain ⟨srcEntry, hentry, -⟩ := hwf.entryOf src y hy
    obtain ⟨names, hl⟩ := ht.rooted y.entryRef (by simp [directory_of_entry hentry])
    have hread : adminGetSource C.P h path (ioMaxResourcePathLen + 1) =
        .ok (if (pathOf names).length < ioMaxResourcePathLen + 1 then .ok (pathOf names)
          else .error .overflow) := by
      rw [adminGetSource, adminRead_found hfind he hr hx, hsrc]
      dsimp only
      rw [getResource_ok.mpr hy, ok_bind, pathOut_cases ht hl (Nat.succ_pos _)]
    have hfits : (pathOf names).length ≤ ioMaxResourcePathLen ↔ SourceFits h x := by
      constructor
      · intro hle src' y' names' hsrc' hy' hl'
        cases hsrc.symm.trans hsrc'
        cases hy.symm.trans hy'
        rwa [ht.directory.leads_names ht.root hl' hl]
      · exact fun hall => hall src y names hsrc hy hl
    refine Decides.congr ((prints_look hread).decides ?_) hfits
    by_cases hroom : (pathOf names).length < ioMaxResourcePathLen + 1
    · rw [if_pos hroom]
      refine Decides.congr (Q := True) ?_ (iff_of_true trivial (Nat.le_of_lt_succ hroom))
      refine (decides_indent depth).andThen fun _ => (decides_print _).andThen fun _ => ?_
      dsimp only
      split
      · exact (decides_indent depth).andThen fun _ =>
          (decides_print _).andThen fun _ => decides_print _
      · exact (prints_pure ()).completes.andThen fun _ => decides_print _
    · rw [if_neg hroom]
      exact decides_throw (fun hle => hroom (Nat.lt_succ_of_le hle)) (.inr rfl)

/-! ### Settings of Observations -/

/-- The specification is read if the Observation is found where the getters look. -/
theorem jsonExtraction_found (hs : Searchable C.P h) {o : Observation}
    (htype : entry.type = .observation) (hcls : x.cls = .observation o) :
    adminGetJsonExtraction C.P h path adminMaxJsonExtractorLen =
      .ok (h, if underObs path = true ∧ o.jsonExtraction ≠ [] then
        copyOut adminMaxJsonExtractorLen o.jsonExtraction else .error .notFound) := by
  cases hrel : obsRelative path with
  | none =>
    have hunder : underObs path = false := by
      rcases obsRelative_cases path with ⟨-, hno, -⟩ | ⟨hsome, -⟩ | ⟨rest, -, -, hsome⟩
      · exact hno
      · cases hrel.symm.trans hsome
      · cases hrel.symm.trans hsome
    rw [adminGetJsonExtraction, adminFindObservation, hrel, hunder]
    rfl
  | some rest =>
    obtain ⟨hfound, hunder⟩ := obsRelative_found hfind hs hrel
    have hobs : adminFindObservation C.P h path = .ok (h, some e) :=
      (adminFind_spec hs hrel).mpr ⟨e, entry, hfound, he, by rw [if_pos htype]⟩
    have hattached : attachedTo h e = .ok r := by
      rw [attachedTo, getEntry_ok.mpr he, ok_bind, hr]
      rfl
    rw [adminGetJsonExtraction, hobs, getFromObservation, ok_bind]
    dsimp only
    rw [hattached, ok_bind, getResource_ok.mpr hx, ok_bind, hcls, hunder]
    by_cases hnil : o.jsonExtraction = []
    · simp [hnil]
      rfl
    · simp [hnil]
      rfl

theorem decides_jsonExtraction (hs : Searchable C.P h) (htype : entry.type = .observation)
    (hcls : ∃ o, x.cls = .observation o) (depth : Nat) :
    Decides (ExtractionFits path x) GivesUp (printJsonExtractionSetting C depth path) h := by
  obtain ⟨o, hcls⟩ := hcls
  have hfits : ExtractionFits path x ↔
      (underObs path = true → o.jsonExtraction.length < adminMaxJsonExtractorLen) := by
    refine ⟨fun hall => hall o hcls, fun hlt o' hcls' hunder => ?_⟩
    cases hcls.symm.trans hcls'
    exact hlt hunder
  refine (prints_request (jsonExtraction_found hfind he hr hx hs htype hcls)).decides ?_
  by_cases hread : underObs path = true ∧ o.jsonExtraction ≠ []
  · rw [if_pos hread, copyOut]
    by_cases hroom : o.jsonExtraction.length < adminMaxJsonExtractorLen
    · rw [if_pos hroom]
      refine Decides.congr (Q := True) ?_ (iff_of_true trivial (hfits.mpr fun _ => hroom))
      exact (decides_indent depth).andThen fun _ => decides_print _
    · rw [if_neg hroom]
      refine (decides_complain _).andThen fun _ => decides_throw (fun hall => ?_) (.inl rfl)
      exact hroom (hfits.mp hall hread.1)
  · rw [if_neg hread]
    refine (prints_pure ()).completes.congr (iff_of_true trivial (hfits.mpr fun hunder => ?_))
    have hnil : o.jsonExtraction = [] := not_not.mp fun hne => hread ⟨hunder, hne⟩
    rw [hnil]
    decide

theorem decides_settings (hwf : WellFormed h) (hs : Searchable C.P h)
    (htype : entry.type = .observation) (hcls : ∃ o, x.cls = .observation o) (depth : Nat) :
    Decides (ExtractionFits path x) GivesUp (printEntrySettings C path depth) h := by
  obtain ⟨minPeriod, hmin⟩ := setting_found hfind hwf hs .zero (·.minPeriod)
  obtain ⟨lowLimit, hlow⟩ := setting_found hfind hwf hs .nan (·.lowLimit)
  obtain ⟨highLimit, hhigh⟩ := setting_found hfind hwf hs .nan (·.highLimit)
  obtain ⟨changeBy, hchange⟩ := setting_found hfind hwf hs .zero (·.changeBy)
  obtain ⟨transform, htransform⟩ := transform_found hfind he hwf hs htype
  obtain ⟨maxCount, hcount⟩ := setting_found hfind hwf hs 0 (·.maxCount)
  obtain ⟨backup, hbackup⟩ := setting_found hfind hwf hs 0 (·.backupPeriod)
  refine (decides_jsonExtraction hfind he hr hx hs htype hcls depth).before fun _ => ?_
  refine (decides_indent depth).andThen fun _ => (prints_request hmin).decides ?_
  refine (decides_double _ _).andThen fun _ => (decides_indent depth).andThen fun _ =>
    (prints_request hlow).decides ?_
  refine (decides_double _ _).andThen fun _ => (decides_indent depth).andThen fun _ =>
    (prints_request hhigh).decides ?_
  refine (decides_double _ _).andThen fun _ => (decides_indent depth).andThen fun _ =>
    (prints_request hchange).decides ?_
  refine (decides_double _ _).andThen fun _ => (decides_indent depth).andThen fun _ =>
    (prints_request htransform).decides ?_
  refine (decides_print _).andThen fun _ => (decides_indent depth).andThen fun _ =>
    (prints_request hcount).decides ?_
  refine (decides_print _).andThen fun _ => (decides_indent depth).andThen fun _ =>
    (prints_request hbackup).decides ?_
  exact decides_print _

/-- The part for Observations. -/
theorem decides_ifObservation (hwf : WellFormed h) (hs : Searchable C.P h)
    (hcls : ClassOk entry.type x.cls) (depth : Nat) :
    Decides (ExtractionFits path x) GivesUp
      (if entry.type = .observation then printEntrySettings C path depth else pure ()) h := by
  split
  · next htype =>
    have hobs := (isObservation_iff hcls).mp htype
    exact decides_settings hfind he hr hx hwf hs htype hobs depth
  · next hno =>
    refine (prints_pure ()).completes.congr (iff_of_true trivial fun o hobs => ?_)
    exact absurd ((isObservation_iff hcls).mpr ⟨o, hobs⟩) hno

end Found

/-- An entry is printed in full if it is printable, and otherwise the tool gives up. -/
theorem decides_printEntry (hwf : WellFormed h) (ht : TreeOk C.P h)
    (hfind : resTreeFindEntryAtAbsolutePath C.P h path = .ok (some e))
    (he : h.entries e = some entry) (depth : Nat) :
    Decides (Printable h path entry) GivesUp (printEntry C path depth) h := by
  have htype : adminGetEntryType C.P h path = .ok (some entry.type) :=
    atEntry_found hfind he none fun entry => pure (some entry.type)
  refine (prints_look htype).decides ?_
  split
  · next hnone => cases hnone
  · next hnameSpace =>
    have hbare : entry.resourcePtr = none :=
      (hwf.nameSpace e entry he).mp (Option.some.inj hnameSpace)
    have hall : Printable h path entry := by
      constructor <;> intro r x hr <;> cases hbare.symm.trans hr
    refine Decides.congr (Q := True) ?_ (iff_of_true trivial hall)
    exact (decides_indent depth).andThen fun _ => decides_print _
  · next entryType hno heq =>
    cases heq
    obtain ⟨r, hr⟩ : ∃ r, entry.resourcePtr = some r := by
      rw [← Option.ne_none_iff_exists']
      exact fun hbare => hno ((hwf.nameSpace e entry he).mpr hbare)
    obtain ⟨x, hx, hcls, htyped⟩ := hwf.resource he hr
    have hparts := (decides_override hfind he hr hx htyped (depth + 2)).bind fun _ =>
      (decides_default hfind he hr hx htyped (depth + 2)).bind fun _ =>
        (decides_source hfind he hr hx hwf ht (depth + 2) entry.type).bind fun _ =>
          decides_ifObservation hfind he hr hx hwf ht.toSearchable hcls (depth + 2)
    refine Decides.congr (Q := CanShow .ofOverride x ∧ CanShow .ofDefault x ∧ SourceFits h x ∧
      ExtractionFits path x) ?_ ?_
    · refine (decides_indent depth).andThen fun _ => (decides_print _).andThen fun _ => ?_
      refine (decides_currentValue hfind he hr hx hwf ht htyped).andThen fun _ => ?_
      refine (decides_dataType hfind he hr hx htyped (depth + 2)).andThen fun _ => ?_
      exact (decides_units hfind he hr hx (depth + 2)).andThen fun _ => hparts
    · constructor
      · rintro ⟨hover, hdef, hsrc, hext⟩
        constructor <;> intro r' x' hr' hx' <;> cases hr.symm.trans hr' <;>
          cases hx.symm.trans hx' <;> assumption
      · rintro ⟨hover, hdef, hsrc, hext⟩
        exact ⟨hover r x hr hx, hdef r x hr hx, hsrc r x hr hx, hext r x hr hx⟩

end MangOH.AdminTool
