import MangOH.DataHub.JsonTexts

/-! What the hub holds as JSON is JSON, over whole lives of the hub, as long as clients pass JSON
and nothing is coerced to JSON that the hub cannot turn into it. -/
namespace MangOH.DataHub

open Outcome JsonGrammar Json

variable {P : Platform} {h h' : Hub} {x : Resource} {s : DataSample} {longBits : Nat}

/-- A sample that a resource holds. -/
def Resource.Holds (x : Resource) (s : DataSample) : Prop :=
  x.currentValue = some s ∨ x.pushedValue = some s ∨ x.overrideValue = some s ∨
    x.defaultValue = some s ∨ x.jsonExample = some s ∨ ∃ o, x.cls = .observation o ∧ s ∈ o.samples

/-- If it is a JSON text, it is one of RFC 8259, and one that the hub would take from a client. -/
def Value.ValidJson (P : Platform) (v : Value) : Prop :=
  ∀ text, v = .json text → IsText rfc8259 text.bytes ∧ P.jsonIsValid text.bytes = true

def Argument.IsJson (value : Argument) : Prop := ∀ text, value = .json text → IsText rfc8259 text

/-- The JSON texts that a client passes are JSON. The hub looks at them itself, except for example
values, which have to be texts that it would accept. -/
def Op.GivesJson : Op → Prop
  | .ioPush _ _ _ value | .ioSetDefault _ _ value | .adminPush _ _ value
  | .adminSetDefault _ value | .adminSetOverride _ value => value.IsJson
  | .ioSetJsonExample _ _ text => IsText rfc8259 text ∧ Json.jsonIsValid text = true
  | _ => True

/-- What is pushed to a JSON Input or Output can be turned into JSON, and a buffer is backed up as
what it holds. -/
def Event.CoercesWell : Event → Prop
  | .pushing _ _ x _ _ s => ∀ mandatory, x.cls = .ioPoint .json mandatory → s.value.CoercesToJson
  | .obs _ ev => ev.BacksUpOwnType
  | _ => True

/-- The states of a hub that starts without backup files, lives through such operations, and is
restarted now and then. -/
inductive JsonRun (P : Platform) : Hub → Prop
  | boot (env : Environment) : JsonRun P (boot env [])
  | step {h h' : Hub} (fuel : Nat) (op : Op) (hr : JsonRun P h) (hop : op.GivesJson)
      (hs : step P fuel h op = .ok h') (hlog : ∀ e ∈ h'.log, e.CoercesWell) : JsonRun P h'
  | restart {h : Hub} (env : Environment) (hr : JsonRun P h) : JsonRun P (boot env h.files)

theorem validJson_of_common (hparse : P.ParsesJson longBits) {v : Value}
    (hv : v.Json (IsText common)) : v.ValidJson P := by
  intro text heq
  obtain ⟨t, ht⟩ := hv text heq
  refine ⟨⟨t, common_rfc8259 ht⟩, (hparse.isValid _).trans ?_⟩
  exact jsonIsValid_iff.mpr ⟨t, common_relaxed ht⟩

theorem common_of_accepted {text : Bytes} (hrfc : IsText rfc8259 text)
    (hvalid : Json.jsonIsValid text = true) : IsText common (cString text) := by
  have hcommon := common_of_both (jsonIsValid_iff.mp hvalid) hrfc
  rw [cString_text hcommon]
  exact hcommon

theorem Argument.IsJson.gives (hparse : P.ParsesJson longBits) {value : Argument}
    (hv : value.IsJson) : value.Gives P (IsText common) :=
  fun text heq hvalid => common_of_accepted (hv text heq) ((hparse.isValid text).symm.trans hvalid)

theorem Op.GivesJson.gives (hparse : P.ParsesJson longBits) {op : Op} (hop : op.GivesJson) :
    op.Gives P (IsText common) := by
  cases op with
  | ioSetJsonExample => exact common_of_accepted hop.1 hop.2
  | ioPush => exact Argument.IsJson.gives hparse hop
  | ioSetDefault => exact Argument.IsJson.gives hparse hop
  | adminPush => exact Argument.IsJson.gives hparse hop
  | adminSetDefault => exact Argument.IsJson.gives hparse hop
  | adminSetOverride => exact Argument.IsJson.gives hparse hop
  | _ => trivial

theorem Event.CoercesWell.to (hprint : P.PrintsLf) {e : Event} (he : e.CoercesWell) :
    e.CoercesTo P (IsText common) := by
  cases e with
  | pushing => exact fun mandatory hcls => coercible_common hprint (he mandatory hcls)
  | obs => exact he
  | _ => trivial

theorem json_of_run (hparse : P.ParsesJson longBits) (hprint : P.PrintsLf) (hr : JsonRun P h) :
    h.Json (IsText common) := by
  induction hr with
  | boot env => exact ⟨by simp [boot], by simp [boot]⟩
  | step fuel op _ hop hs hlog ih =>
    have hkept := (kept_step (keeps_common hparse) fuel (.refl fun _ => ih)
      (hop.gives hparse)).result hs
    exact hkept.json fun e he => (hlog e he).to hprint
  | restart env _ ih => exact ⟨by simp [boot], ih.files⟩

theorem Resource.Json.holds {G : CString → Prop} (hx : x.Json G) (hs : x.Holds s) :
    s.value.Json G := by
  rcases hs with hs | hs | hs | hs | hs | ⟨o, hcls, hs⟩
  · exact hx.current s hs
  · exact hx.pushed s hs
  · exact hx.override s hs
  · exact hx.default s hs
  · exact hx.jsonExample s hs
  · exact hx.buffered o hcls s hs

/-- Every JSON sample that any resource holds is valid JSON, and so is every one that is restored
from a backup file that the hub has written. -/
theorem held_json (hparse : P.ParsesJson longBits) (hprint : P.PrintsLf) (hr : JsonRun P h) :
    (∀ r x s, h.resources r = some x → x.Holds s → s.value.ValidJson P) ∧
    ∀ f ∈ h.files, ∀ env o evs newest,
      obsRestoreContent env obsCreate f.2 = .ok (o, evs, newest) →
        ∀ s ∈ o.samples, s.value.ValidJson P := by
  have hj := json_of_run hparse hprint hr
  constructor
  · intro r x s hx hs
    exact validJson_of_common hparse ((hj.resources r x hx).holds hs)
  · intro f hf env o evs newest hrestore s hs
    have hempty : Observation.Json (IsText common) obsCreate := by
      intro s hs
      simp [Observation.samples, obsCreate] at hs
    exact validJson_of_common hparse (((hj.files f hf env obsCreate hempty).result hrestore).1 s hs)

/-! ### A run -/

/-- A platform with the parser of `json.c`. -/
def parsingPlatform : Platform :=
  { printingPlatform with
    jsonIsValid := Json.jsonIsValid
    jsonExtract := fun json spec => (Json.jsonExtract 64 hubMaxStringBytes json spec).toOption }

theorem parsesJson_parsingPlatform : parsingPlatform.ParsesJson 64 := ⟨fun _ => rfl, fun _ _ => rfl⟩

/-- `[[]]` -/
def nestedText : Bytes :=
  [Bracket.array.opening, Bracket.array.opening, Bracket.array.closing, Bracket.array.closing]

theorem isText_nestedText : IsText rfc8259 nestedText := by
  have hinner : Derives rfc8259 .value nestedText.tail [Bracket.array.closing]
      [([], .bracket .array [Bracket.array.opening, Bracket.array.closing] [])] :=
    .empty .array (.nil _) rfl
  have houter : Derives rfc8259 .value nestedText [] [([], .bracket .array nestedText _)] :=
    .bracket .array (.nil _) (.last .array (.element hinner) (.nil _)) (List.append_nil _).symm
  exact ⟨_, nestedText, [], .nil _, houter, .nil _⟩

/-- A number and an array are pushed to a JSON Input; an Observation buffers what it extracts. -/
def jsonRun : List Op :=
  [.ioCreateInput 0 (ascii "i") .json [], .adminCreateObs (ascii "o"),
    .adminSetBufferMaxCount (ascii "o") 5, .adminSetJsonExtraction (ascii "o") (ascii "[0]"),
    .adminSetSource (ascii "/obs/o") (ascii "/app/a/i"),
    .ioPush 0 (ascii "i") (double 1) (.numeric (double 7)),
    .ioPush 0 (ascii "i") (double 2) (.json nestedText)]

theorem givesJson_jsonRun : ∀ op ∈ jsonRun, op.GivesJson := by
  simp [jsonRun, Op.GivesJson, Argument.IsJson, isText_nestedText]

/-- Numbers are all that is coerced to JSON, and nothing is backed up. -/
def Event.coercesNumbers : Event → Bool
  | .pushing _ _ x _ _ s =>
    match x.cls, s.value with
    | .ioPoint .json _, .numeric d => d.isFinite
    | .ioPoint .json _, .string _ => false
    | _, _ => true
  | .obs _ (.backingUp ..) => false
  | _ => true

theorem coercesWell_of_numbers {e : Event} (he : e.coercesNumbers = true) : e.CoercesWell := by
  cases e with
  | pushing r ctx x t u s =>
    intro mandatory hcls
    obtain ⟨ts, v, via, hops⟩ := s
    simp only [Event.coercesNumbers, hcls] at he
    cases v with
    | numeric d => exact he
    | string => cases he
    | _ => trivial
  | obs r ev =>
    cases ev with
    | backingUp => cases he
    | _ => trivial
  | _ => trivial

def runCoercing (fuel : Nat) (h : Hub) (ops : List Op) : Except Fault Hub :=
  ops.foldlM (fun h op => do
    let h ← step parsingPlatform fuel h op
    if h.log.all Event.coercesNumbers then pure h else .error .fatal) h

theorem jsonRun_runCoercing {fuel : Nat} {ops : List Op} (hr : JsonRun parsingPlatform h)
    (hops : ∀ op ∈ ops, op.GivesJson) :
    Returns (runCoercing fuel h ops) (JsonRun parsingPlatform) := by
  refine Sat.foldlM hr fun h₁ op hop hr₁ => ?_
  refine Sat.bind (Returns.of_ok fun _ heq => heq) fun h₂ hs => ?_
  split
  · next hall =>
    exact .step fuel op hr₁ (hops op hop) hs fun e he =>
      coercesWell_of_numbers (List.all_eq_true.mp hall e he)
  · exact id

/-- The Input holds the array, and the Observation the empty array in it. -/
theorem held_json_jsonRun : ∃ h x o s, JsonRun parsingPlatform h ∧ h.resources 1 = some x ∧
    x.cls = .observation o ∧ s ∈ o.samples ∧ s.type = .json ∧
    s.value.ValidJson parsingPlatform := by
  have hrun : passes (runCoercing 8 (boot smallEnvironment []) jsonRun) (fun h =>
      (h.observation 1).any fun o => o.samples.any fun s => s.type = .json) = true := by
    decide +kernel
  obtain ⟨h, hr, hp⟩ := passes_iff.mp hrun
  obtain ⟨o, ho, hp⟩ := (Option.any_eq_true _ _).mp hp
  obtain ⟨s, hs, htype⟩ := List.any_eq_true.mp hp
  obtain ⟨x, hx, hcls⟩ := observation_eq_some ho
  have hj := (jsonRun_runCoercing (.boot _) givesJson_jsonRun).result hr
  have hvalid := (held_json parsesJson_parsingPlatform printsLf_printingPlatform hj).1 1 x s hx
    (.inr (.inr (.inr (.inr (.inr ⟨o, hcls, hs⟩)))))
  exact ⟨h, x, o, s, hj, hx, hcls, hs, of_decide_eq_true htype, hvalid⟩

end MangOH.DataHub
