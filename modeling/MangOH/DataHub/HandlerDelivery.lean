import MangOH.DataHub.HandlerLists
import MangOH.DataHub.Scenario

/-! Push handlers are called once for each value that their resource accepts, if the rule for their
type of data selects it. -/
namespace MangOH.DataHub

open Outcome

variable {P : Platform} {h h' : Hub} {s : DataSample} {t : DataType} {p : HandlerRef}
  {handlers : List (HandlerRef × DataType)} {calls evs : List Event}
  {rule : List (HandlerRef × DataType) → DataSample → List Event → Prop}

/-! ### Rows of calls -/

/-- The handlers, the sample and the row of calls of each acceptance in a log. -/
def rows : List Event → List (List (HandlerRef × DataType) × DataSample × List Event)
  | [] => []
  | .notifying _ handlers s :: evs => (handlers, s, evs.takeWhile Event.isCall) :: rows evs
  | _ :: evs => rows evs

theorem rows_plain {e : Event} (he : e.isPlain = true) (evs : List Event) :
    rows (e :: evs) = rows evs := by
  cases e <;> first | rfl | exact absurd he Bool.false_ne_true

theorem rows_calls (hcalls : ∀ e ∈ calls, e.isCall = true) (evs : List Event) :
    rows (calls ++ evs) = rows evs := by
  induction calls with
  | nil => rfl
  | cons e calls ih =>
    have he := hcalls e List.mem_cons_self
    have hrest := ih fun e hmem => hcalls e (List.mem_cons_of_mem _ hmem)
    cases e <;> first | exact hrest | exact absurd he Bool.false_ne_true

/-- A log that starts after a row of calls. -/
def StartsQuiet (evs : List Event) : Prop := evs.takeWhile Event.isCall = []

theorem Answered.startsQuiet (ha : Answered rule evs) {post : List Event} (hp : StartsQuiet post) :
    StartsQuiet (evs ++ post) := by
  cases ha with
  | nil => exact hp
  | @plain e evs he _ =>
    show StartsQuiet (e :: (evs ++ post))
    cases e <;> first | rfl | exact absurd he Bool.false_ne_true
  | registered => rfl
  | accepted => rfl

theorem takeWhile_calls (hcalls : ∀ e ∈ calls, e.isCall = true) (hq : StartsQuiet evs) :
    (calls ++ evs).takeWhile Event.isCall = calls := by
  rw [List.takeWhile_append_of_pos hcalls, hq, List.append_nil]

theorem Answered.rows_append (ha : Answered rule evs) {post : List Event} (hp : StartsQuiet post) :
    ∀ row ∈ rows (evs ++ post), rule row.1 row.2.1 row.2.2 ∨ row ∈ rows post := by
  induction ha generalizing post with
  | nil => exact fun row hrow => .inr hrow
  | plain he _ ih =>
    rw [List.cons_append, rows_plain he]
    exact ih hp
  | registered r p call _ ih =>
    rw [List.cons_append, List.append_assoc]
    show ∀ row ∈ rows (_ ++ _), _
    rw [rows_calls fun e he => ?_]
    · exact ih hp
    · obtain ⟨c, _, rfl⟩ := Option.map_eq_some_iff.mp (Option.mem_toList.mp he)
      rfl
  | @accepted r et s inner calls evs handlers hcalls hrule _ ha ihi ih =>
    intro row hrow
    rw [List.cons_append, List.append_assoc, List.cons_append, List.append_assoc] at hrow
    have hquiet := ha.startsQuiet hp
    have hinner : StartsQuiet (.notifying r handlers s :: (calls ++ (evs ++ post))) := rfl
    rcases ihi hinner row hrow with hrow | hrow
    · exact .inl hrow
    · rcases List.mem_cons.mp hrow with rfl | hrow
      · refine .inl ?_
        dsimp only
        rw [takeWhile_calls hcalls hquiet]
        exact hrule
      · rw [rows_calls hcalls] at hrow
        exact ih hp row hrow

theorem Answered.rows (ha : Answered rule evs) : ∀ row ∈ rows evs, rule row.1 row.2.1 row.2.2 := by
  intro row hrow
  rw [← List.append_nil evs] at hrow
  have hnil : StartsQuiet [] := rfl
  rcases ha.rows_append hnil row hrow with hrule | hmem
  · exact hrule
  · cases hmem

/-! ### Handlers are listed once -/

/-- Values are accepted for the handlers that are on the resource. -/
theorem accepting_micro (hwf : WellFormed h) (hm : Micro P h h') :
    ∃ evs, h'.log = h.log ++ evs ∧ ∀ r et list s, .accepting r et list s ∈ evs →
      ∃ x entry, h.resources r = some x ∧ h.entries x.entryRef = some entry ∧ et = entry.type ∧
        list = x.pushHandlerList ∧ x.currentValue = some s := by
  obtain ⟨evs, hlog, hlogged⟩ := logged_micro hwf hm
  refine ⟨evs, hlog, fun r et list s hmem => ?_⟩
  cases hlogged _ hmem with
  | accepting hx he hs => exact ⟨_, _, hx, he, rfl, rfl, hs⟩
  | plain he => cases he

theorem reachable_accepting_nodup (hr : Reachable P h) :
    ∀ r et list s, .accepting r et list s ∈ h.log → list.Nodup := by
  refine (reachable_induction (fun _ => True)
    (Q := fun h => HandlersHeld h ∧ ∀ r et list s, .accepting r et list s ∈ h.log → list.Nodup)
    ?_ ?_ hr fun _ _ => trivial).2
  · exact fun env files => ⟨handlersHeld_boot env files, by simp [boot]⟩
  · rintro a b hwf hm _ ⟨hh, hlists⟩
    refine ⟨handlersHeld_micro hwf hm hh, fun r et list s hmem => ?_⟩
    obtain ⟨evs, hlog, hnew⟩ := accepting_micro hwf hm
    rw [hlog] at hmem
    rcases List.mem_append.mp hmem with hmem | hmem
    · exact hlists r et list s hmem
    · obtain ⟨x, entry, hx, _, _, rfl, _⟩ := hnew r et list s hmem
      have hnodup := hh.nodup r
      rw [listed_of_resource hx] at hnodup
      exact hnodup

/-! ### The rule -/

/-- The event is a call of the handler `p`. -/
def Event.callsHandler (p : HandlerRef) : Event → Bool
  | .called q .. => decide (q = p)
  | _ => false

/-- A row of calls in which each handler is called as it has been promised: once or not at all. Only
handlers for which the promise is `none` may be treated in any other way. -/
structure OncePerHandler (promise : DataType → DataSample → Option (Option Argument))
    (handlers : List (HandlerRef × DataType)) (s : DataSample) (calls : List Event) : Prop where
  distinct : (handlers.map Prod.fst).Nodup
  others : ∀ e ∈ calls, ∃ handler ∈ handlers, e.callsHandler handler.1 = true
  each : ∀ p t call, (p, t) ∈ handlers → promise t s = some call →
    calls.filter (Event.callsHandler p) = (call.map (.called p s.timestamp)).toList

theorem callsHandler_handlerCallOf {handler : HandlerRef × DataType} {e : Event}
    (hc : handlerCallOf P s handler = some e) (p : HandlerRef) :
    e.callsHandler p = decide (handler.1 = p) := by
  obtain ⟨value, _, rfl⟩ := Option.map_eq_some_iff.mp hc
  rfl

theorem filter_calls_of_notMem (hp : p ∉ handlers.map Prod.fst) :
    (handlers.filterMap (handlerCallOf P s)).filter (Event.callsHandler p) = [] := by
  rw [List.filter_eq_nil_iff]
  intro e he hcalls
  obtain ⟨handler, hmem, hc⟩ := List.mem_filterMap.mp he
  rw [callsHandler_handlerCallOf hc, decide_eq_true_iff] at hcalls
  exact hp (hcalls ▸ List.mem_map_of_mem hmem)

theorem filter_calls (hd : (handlers.map Prod.fst).Nodup) (hmem : (p, t) ∈ handlers) :
    (handlers.filterMap (handlerCallOf P s)).filter (Event.callsHandler p) =
      (handlerCallOf P s (p, t)).toList := by
  induction handlers with
  | nil => cases hmem
  | cons handler handlers ih =>
    rw [List.map_cons, List.nodup_cons] at hd
    have hcons : (handler :: handlers).filterMap (handlerCallOf P s) =
        (handlerCallOf P s handler).toList ++ handlers.filterMap (handlerCallOf P s) := by
      rw [List.filterMap_cons]
      cases handlerCallOf P s handler <;> rfl
    rw [hcons, List.filter_append]
    rcases List.mem_cons.mp hmem with rfl | hmem
    · rw [filter_calls_of_notMem hd.1, List.append_nil, List.filter_eq_self]
      intro e he
      rw [callsHandler_handlerCallOf (Option.mem_toList.mp he)]
      exact decide_eq_true rfl
    · have hne : handler.1 ≠ p := fun heq => hd.1 (heq ▸ List.mem_map_of_mem hmem)
      rw [ih hd.2 hmem, List.filter_eq_nil_iff.mpr, List.nil_append]
      intro e he
      rw [callsHandler_handlerCallOf (Option.mem_toList.mp he), decide_eq_true_iff]
      exact hne

/-- The rule of the documentation for push handlers. -/
def documented (P : Platform) (t : DataType) (s : DataSample) : Option Argument :=
  match t with
  | .trigger => some .trigger
  | .boolean | .numeric | .string => if t = s.type then some s.value.argument else none
  | .json => some (.json (s.value.jsonText P))

/-- A converted text, if it fits the buffer. Nothing is promised about a text that fills it but for
its terminator. -/
def delivered (argument : CString → Argument) (text : CString) : Option (Option Argument) :=
  if text.length < ioMaxStringValueLen then some (some (argument text))
  else if text.length = ioMaxStringValueLen then none
  else some none

/-- What the hub keeps to: string handlers get other values as JSON too, texts that are too long are
not delivered, and trigger handlers can only count on triggers. -/
def promised (P : Platform) (t : DataType) (s : DataSample) : Option (Option Argument) :=
  if t = s.type then some (some s.value.argument)
  else match t with
    | .trigger => none
    | .boolean | .numeric => some none
    | .string => delivered .string (s.value.jsonText P)
    | .json => delivered .json (s.value.jsonText P)

theorem delivered_fitting {argument : CString → Argument} {text : CString} {call : Option Argument}
    (hd : delivered argument text = some call) :
    call = (fitting ioMaxStringValueLen text).map argument := by
  unfold delivered at hd
  unfold fitting
  by_cases hlt : text.length < ioMaxStringValueLen
  · rw [if_pos hlt] at hd ⊢
    exact (Option.some.inj hd).symm
  · rw [if_neg hlt] at hd ⊢
    split at hd
    · cases hd
    · exact (Option.some.inj hd).symm

/-- Promises are kept. -/
theorem promised_calledWith {call : Option Argument} (hp : promised P t s = some call) :
    call = calledWith P t s := by
  unfold promised at hp
  unfold calledWith
  by_cases ht : t = s.type
  · rw [if_pos ht] at hp ⊢
    exact (Option.some.inj hp).symm
  · rw [if_neg ht] at hp ⊢
    cases t with
    | trigger => cases hp
    | boolean => exact (Option.some.inj hp).symm
    | numeric => exact (Option.some.inj hp).symm
    | string => exact delivered_fitting hp
    | json => exact delivered_fitting hp

theorem oncePerHandler_of_asCalled (hd : (handlers.map Prod.fst).Nodup)
    (hcalls : asCalled P handlers s calls) : OncePerHandler (promised P) handlers s calls := by
  cases hcalls
  refine ⟨hd, fun e he => ?_, fun p t call hmem hpromise => ?_⟩
  · obtain ⟨handler, hmem, hc⟩ := List.mem_filterMap.mp he
    refine ⟨handler, hmem, ?_⟩
    rw [callsHandler_handlerCallOf hc]
    exact decide_eq_true rfl
  · rw [filter_calls hd hmem, promised_calledWith hpromise]
    rfl

theorem Answered.oncePerHandler (ha : Answered (asCalled P) evs)
    (hd : ∀ r et list s, .accepting r et list s ∈ evs → list.Nodup) :
    Answered (OncePerHandler (promised P)) evs := by
  induction ha with
  | nil => exact .nil
  | plain he _ ih => exact .plain he (ih fun r et list s hmem => hd r et list s (by simp [hmem]))
  | registered r p call _ ih =>
    exact .registered r p call (ih fun r et list s hmem => hd r et list s (by simp [hmem]))
  | accepted r et s handlers hcalls hrule _ _ ihi ih =>
    have hnodup := hd r et _ s List.mem_cons_self
    exact .accepted r et s handlers hcalls (oncePerHandler_of_asCalled hnodup hrule)
      (ihi fun r et list s hmem => hd r et list s (by simp [hmem]))
      (ih fun r et list s hmem => hd r et list s (by simp [hmem]))

/-- In every run, each value that is accepted is answered by one row of calls, in which each handler
on the resource is called once, if the value is for its type of data, and there are no other calls
than those of new handlers. -/
theorem answered_promised (hr : Reachable P h) :
    Answered (OncePerHandler (promised P)) h.log := by
  obtain ⟨env, files, he⟩ := reachable_ext hr
  obtain ⟨evs, hlog, ha⟩ := he.settled
  rw [show (boot env files).log = [] from rfl, List.nil_append] at hlog
  rw [hlog]
  refine ha.oncePerHandler fun r et list s hmem => ?_
  exact reachable_accepting_nodup hr r et list s (hlog ▸ hmem)

/-- A number is pushed to an Output with handlers for triggers, strings and numbers. -/
def threeHandlersRun : List Op :=
  [.ioCreateOutput 0 (ascii "x") .numeric [],
   .ioAddPushHandler 0 (ascii "x") .trigger,
   .ioAddPushHandler 0 (ascii "x") .string,
   .ioAddPushHandler 0 (ascii "x") .numeric,
   .ioPush 0 (ascii "x") (double 3) (.numeric (double 7))]

theorem answered_promised_threeHandlersRun : ∃ h row, Reachable smallPlatform h ∧
    row ∈ rows h.log ∧ row.2.2.length = 2 ∧
    Answered (OncePerHandler (promised smallPlatform)) h.log := by
  have hrun : smallRunEnds threeHandlersRun (fun h =>
      (rows h.log).any fun row => row.2.2.length == 2) = true := by
    decide +kernel
  obtain ⟨h, hr, hp⟩ := exists_of_smallRunEnds hrun
  obtain ⟨row, hrow, hlen⟩ := List.any_eq_true.mp hp
  exact ⟨h, row, hr, hrow, by simpa using hlen, answered_promised hr⟩

/-- The string handler gets the number, though it is not a string. -/
theorem answered_documented_fails : ∃ h, Reachable smallPlatform h ∧
    ¬ Answered (OncePerHandler (fun t s => some (documented smallPlatform t s))) h.log := by
  have hrun : smallRunEnds threeHandlersRun (fun h => (rows h.log).any fun row =>
      row.1.contains (1, .string) && decide (row.2.1.type = .numeric) &&
      row.2.2.any (Event.callsHandler 1)) = true := by
    decide +kernel
  obtain ⟨h, hr, hp⟩ := exists_of_smallRunEnds hrun
  obtain ⟨⟨handlers, s, calls⟩, hrow, hbad⟩ := List.any_eq_true.mp hp
  rw [Bool.and_eq_true, Bool.and_eq_true, List.contains_iff_mem, decide_eq_true_iff] at hbad
  obtain ⟨⟨hmem, hs⟩, hcalled⟩ := hbad
  refine ⟨h, hr, fun ha => ?_⟩
  have hnone : documented smallPlatform .string s = none := by
    simp [documented, show s.type = .numeric from hs]
  have heach := (ha.rows _ hrow).each 1 .string none hmem (congrArg some hnone)
  obtain ⟨e, he, hcalls⟩ := List.any_eq_true.mp hcalled
  have hfilter : e ∈ calls.filter (Event.callsHandler 1) := List.mem_filter.mpr ⟨he, hcalls⟩
  rw [show calls.filter (Event.callsHandler 1) = [] from heach] at hfilter
  cases hfilter

end MangOH.DataHub
