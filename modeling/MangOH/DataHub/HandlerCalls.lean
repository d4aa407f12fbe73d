import MangOH.DataHub.Resource
import MangOH.DataHub.Typing

/-! What a push handler is called with: `CallPushHandler` as a function of the sample alone. -/
namespace MangOH.DataHub

variable {P : Platform} {h : Hub} {p : HandlerRef} {handler : Handler} {s : DataSample}
  {t : DataType}

/-- The value of a sample as a handler for its own type gets it. -/
def Value.argument : Value → Argument
  | .trigger => .trigger
  | .boolean b => .boolean b
  | .numeric d => .numeric d
  | .string text => .string text.bytes
  | .json text => .json text.bytes

/-- The text that `dataSample_ConvertToJson` is after. -/
def Value.jsonText (P : Platform) : Value → CString
  | .trigger => []
  | .boolean b => ascii (if b then "true" else "false")
  | .numeric d => P.formatLf d
  | .string text => ascii "\"" ++ text.bytes ++ ascii "\""
  | .json text => text.bytes

/-- A text, if it fits a buffer of `size` bytes. -/
def fitting (size : Nat) (text : CString) : Option CString :=
  if text.length < size then some text else none

/-- What `CallPushHandler` calls a handler for data of type `t` with, if it calls it. -/
def calledWith (P : Platform) (t : DataType) (s : DataSample) : Option Argument :=
  if t = s.type then some s.value.argument
  else match t with
    | .string => (fitting ioMaxStringValueLen (s.value.jsonText P)).map .string
    | .json => (fitting ioMaxStringValueLen (s.value.jsonText P)).map .json
    | .trigger | .boolean | .numeric => none

theorem convertToJson_eq (hs : s.type = t) (size : Nat) :
    dataSampleConvertToJson P s t size = .ok (fitting size (s.value.jsonText P)) := by
  obtain ⟨ts, v, u, n⟩ := s
  subst hs
  cases v with
  | trigger => rfl
  | boolean b => rfl
  | numeric d => rfl
  | string text =>
    have hlen : (ascii "\"" ++ text.bytes ++ ascii "\"").length = text.bytes.length + 2 := by
      simp [ascii]
    show Except.ok _ = Except.ok (fitting size _)
    unfold fitting
    rw [Value.jsonText, hlen]
  | json text => rfl

/-- `CallPushHandler` never reads a sample at a type that is not its own. -/
theorem callPushHandler_eq (p : HandlerRef) (handler : Handler) (hs : s.type = t) :
    callPushHandler P p handler t s =
      .ok ((calledWith P handler.dataType s).map (.called p s.timestamp)) := by
  unfold callPushHandler calledWith
  rw [hs]
  split
  · obtain ⟨ts, v, u, n⟩ := s
    subst hs
    cases v <;> rfl
  · next hne =>
    split
    · next hstring =>
      rw [hstring] at hne ⊢
      rw [dataSampleConvertToString, if_neg fun ht => hne ht.symm, convertToJson_eq hs]
      cases fitting ioMaxStringValueLen (s.value.jsonText P) <;> rfl
    · split
      · next hjson =>
        rw [hjson, convertToJson_eq hs]
        cases fitting ioMaxStringValueLen (s.value.jsonText P) <;> rfl
      · cases hd : handler.dataType <;> first | rfl | simp_all

/-- The call that a sample brings a handler for some type of data, if any. -/
def handlerCallOf (P : Platform) (s : DataSample) (handler : HandlerRef × DataType) :
    Option Event :=
  (calledWith P handler.2 s).map (.called handler.1 s.timestamp)

theorem handlerCall_eq (hp : h.handlers p = some handler) (hs : s.type = t) :
    handlerCall P h p t s =
      .ok { h with log := h.log ++ (handlerCallOf P s (p, handler.dataType)).toList } := by
  unfold handlerCall handlerCallOf
  rw [hp]
  dsimp only
  rw [callPushHandler_eq p handler hs]
  cases calledWith P handler.dataType s with
  | none =>
    show Except.ok h = _
    simp
  | some value => rfl

/-- All handlers of a list are called in a row, unless one of them has been freed. -/
theorem handlerCallAll_eq (list : List HandlerRef) (h : Hub) (hs : s.type = t) :
    ((h.registered list).map Prod.fst = list ∧ handlerCallAll P h list t s =
      .ok { h with log := h.log ++ (h.registered list).filterMap (handlerCallOf P s) }) ∨
    (∃ p ∈ list, h.handlers p = none) ∧
      handlerCallAll P h list t s = .error .useAfterFree := by
  induction list generalizing h with
  | nil =>
    refine .inl ⟨rfl, ?_⟩
    show Except.ok h = _
    simp [Hub.registered]
  | cons p list ih =>
    have hcons : handlerCallAll P h (p :: list) t s =
        handlerCall P h p t s >>= fun h => handlerCallAll P h list t s := List.foldlM_cons
    rw [hcons]
    cases hp : h.handlers p with
    | none =>
      refine .inr ⟨⟨p, List.mem_cons_self, hp⟩, ?_⟩
      simp only [handlerCall, hp]
      rfl
    | some handler =>
      rw [handlerCall_eq hp hs]
      have hreg : h.registered (p :: list) = (p, handler.dataType) :: h.registered list := by
        simp [Hub.registered, hp]
      rcases ih { h with log := h.log ++ (handlerCallOf P s (p, handler.dataType)).toList } with
        ⟨hlive, hall⟩ | ⟨⟨q, hq, hnone⟩, herr⟩
      · refine .inl ⟨by rw [hreg, List.map_cons]; exact congrArg _ hlive, hall.trans ?_⟩
        show Except.ok { h with log := (h.log ++ _) ++ (h.registered list).filterMap _ } = _
        rw [hreg, List.append_assoc, List.filterMap_cons]
        cases handlerCallOf P s (p, handler.dataType) <;> rfl
      · exact .inr ⟨⟨q, List.mem_cons_of_mem _ hq, hnone⟩, herr⟩

/-! ### Acceptances and the calls that answer them -/

def Event.isCall : Event → Bool
  | .called .. => true
  | _ => false

/-- An event that has nothing to do with handlers. -/
def Event.isPlain : Event → Bool
  | .accepting .. | .notifying .. | .registering .. | .called .. => false
  | _ => true

/-- Every sample that is accepted for a resource is followed by one row of calls, after the samples
that it brings other resources, and there are no other calls than those of new handlers. `rule` says
what is right for the handlers registered, the sample and the row. -/
inductive Answered (rule : List (HandlerRef × DataType) → DataSample → List Event → Prop) :
    List Event → Prop
  | nil : Answered rule []
  | plain {e : Event} {evs : List Event} (he : e.isPlain = true) (h : Answered rule evs) :
      Answered rule (e :: evs)
  | registered (r : ResRef) (p : HandlerRef) (call : Option (Double × Argument))
      {evs : List Event} (h : Answered rule evs) :
      Answered rule (.registering r p ::
        ((call.map fun c => .called p c.1 c.2).toList ++ evs))
  | accepted (r : ResRef) (et : EntryType) (s : DataSample) {inner calls evs : List Event}
      (handlers : List (HandlerRef × DataType)) (hcalls : ∀ e ∈ calls, e.isCall = true)
      (hrule : rule handlers s calls) (hi : Answered rule inner) (h : Answered rule evs) :
      Answered rule (.accepting r et (handlers.map Prod.fst) s ::
        (inner ++ .notifying r handlers s :: (calls ++ evs)))

section Answered

variable {rule : List (HandlerRef × DataType) → DataSample → List Event → Prop}
  {evs evs' : List Event}

theorem Answered.append (h : Answered rule evs) (h' : Answered rule evs') :
    Answered rule (evs ++ evs') := by
  induction h with
  | nil => exact h'
  | plain he _ ih => exact .plain he ih
  | registered r p call _ ih =>
    rw [List.cons_append, List.append_assoc]
    exact .registered r p call ih
  | accepted r et s handlers hcalls hrule hi _ _ ih =>
    rw [List.cons_append, List.append_assoc, List.cons_append, List.append_assoc]
    exact .accepted r et s handlers hcalls hrule hi ih

theorem answered_of_plain (he : ∀ e ∈ evs, e.isPlain = true) : Answered rule evs := by
  induction evs with
  | nil => exact .nil
  | cons e evs ih =>
    exact .plain (he e List.mem_cons_self) (ih fun e hmem => he e (List.mem_cons_of_mem _ hmem))

end Answered

/-- The row of calls that `handler_CallAll` makes. -/
def asCalled (P : Platform) (handlers : List (HandlerRef × DataType)) (s : DataSample)
    (calls : List Event) : Prop := calls = handlers.filterMap (handlerCallOf P s)

theorem isCall_handlerCallOf {handlers : List (HandlerRef × DataType)} :
    ∀ e ∈ handlers.filterMap (handlerCallOf P s), e.isCall = true := by
  intro e he
  obtain ⟨handler, _, hc⟩ := List.mem_filterMap.mp he
  obtain ⟨value, _, rfl⟩ := Option.map_eq_some_iff.mp hc
  rfl

end MangOH.DataHub
