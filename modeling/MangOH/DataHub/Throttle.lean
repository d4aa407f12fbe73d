import MangOH.DataHub.Creations
import MangOH.DataHub.Criteria
import MangOH.DataHub.Rationals

/-! The minimum period over whole runs: which pushes the filters have accepted, and how far apart
those are. -/
namespace MangOH.DataHub

open Outcome

variable {P : Platform} {h h' : Hub} {ctx : ObsContext} {o o' : Observation} {x x' : Resource}
  {s : DataSample} {t : DataType} {u : CString} {r : ResRef} {et : EntryType} {evs log : List Event}

/-- The verdict of an Observation's filters on a push, with some minimum period. -/
def filtersAccept (P : Platform) (ctx : ObsContext) (x : Resource) (o : Observation)
    (minPeriod : Double) (t : DataType) (s : DataSample) : Bool :=
  match shown P ctx o t s with
  | .ok (some (t, s)) =>
    passes (obsShouldAccept P ctx { o with minPeriod } x.currentValue x.overrideValue.isSome t s)
      Option.isSome
  | _ => false

/-- The filters of the resource accept the push, with the minimum period that is set. -/
def letsThrough (P : Platform) (ctx : ObsContext) (x : Resource) (t : DataType)
    (s : DataSample) : Bool :=
  match x.cls with
  | .observation o => filtersAccept P ctx x o o.minPeriod t s
  | _ => false

def Event.isPushing : Event → Bool
  | .pushing .. => true
  | _ => false

/-- The clock at a push to the resource that the filters accept. -/
def Event.acceptedAt (P : Platform) (r : ResRef) : Event → Option Nat
  | .pushing q ctx x t u s =>
    if q = r ∧ letsThrough P ctx x t { s with via := u } = true then
      some (clockMs ctx.env) else none
  | _ => none

/-- When pushes to a resource have been accepted, the oldest first. -/
def acceptances (P : Platform) (r : ResRef) (log : List Event) : List Nat :=
  log.filterMap (Event.acceptedAt P r)

/-- The minimum period, in milliseconds. -/
def periodMs (P : Platform) (o : Observation) : Double := P.mul o.minPeriod .thousand

/-- This many milliseconds are less than the minimum period. -/
def WithinPeriod (P : Platform) (o : Observation) (elapsed : Nat) : Prop :=
  (periodMs P o).Exceeds elapsed

/-- What a log says of each push to an Observation with a minimum period: it is accepted only if no
accepted one is less than that period ago, and turned down for the period alone only if one is. -/
def Throttles (P : Platform) (log : List Event) : Prop :=
  ∀ before r ctx x t u s after o, log = before ++ .pushing r ctx x t u s :: after →
    x.cls = .observation o → o.minPeriod.isSet = true →
    (letsThrough P ctx x t { s with via := u } = true →
      ∀ last ∈ acceptances P r before, ¬ WithinPeriod P o (clockMs ctx.env - last)) ∧
    (filtersAccept P ctx x o .nan t { s with via := u } = true →
      letsThrough P ctx x t { s with via := u } = false →
      ∃ last ∈ acceptances P r before, WithinPeriod P o (clockMs ctx.env - last))

/-- The state before a push in which the minimum period is judged rightly. Without a current value
no push was accepted less than that period ago; with one, a push was accepted, and the rest of the
time since the latest one modulo `2 ^ 32` ms is within the period only if that time is. -/
def judgesPeriod (P : Platform) (ctx : ObsContext) (x : Resource) (o : Observation)
    (accepted : List Nat) : Prop :=
  match x.currentValue with
  | none => ∀ last ∈ accepted, ¬ WithinPeriod P o (clockMs ctx.env - last)
  | some _ => ∃ last, accepted.getLast? = some last ∧
      (WithinPeriod P o ((clockMs ctx.env - last) % 2 ^ 32) →
        WithinPeriod P o (clockMs ctx.env - last))

/-- Each push to an Observation with a minimum period finds it in such a state. -/
def JudgesPeriods (P : Platform) (log : List Event) : Prop :=
  ∀ before r ctx x t u s after o, log = before ++ .pushing r ctx x t u s :: after →
    x.cls = .observation o → o.minPeriod.isSet = true →
    judgesPeriod P ctx x o (acceptances P r before)

/-- The clock at a push. -/
def Event.pushedAt : Event → Option Nat
  | .pushing _ ctx .. => some (clockMs ctx.env)
  | _ => none

/-- The relative clock never goes back from one push to a later one. -/
def ClockRises (log : List Event) : Prop := (log.filterMap Event.pushedAt).Pairwise (· ≤ ·)

/-! ### One verdict -/

/-- The minimum period has its say last. -/
theorem shouldAccept_period {current : Option DataSample} {overridden : Bool} :
    passes (obsShouldAccept P ctx o current overridden t s) Option.isSome =
      (passes (obsShouldAccept P ctx { o with minPeriod := .nan } current overridden t s)
        Option.isSome &&
      (current.isNone || !o.minPeriod.isSet || !(P.ofNat
        ((getRelativeTimeMs ctx.env + 2 ^ 32 - o.lastPushTime) % 2 ^ 32)).lt (periodMs P o))) := by
  have hlimits : obsShouldAccept.limitsPass { o with minPeriod := .nan } t s =
      obsShouldAccept.limitsPass o t s := rfl
  have hpasses : ∀ previous, obsShouldAccept.changePasses P ctx { o with minPeriod := .nan }
      overridden t s previous = obsShouldAccept.changePasses P ctx o overridden t s previous :=
    fun _ => rfl
  have hnan : Double.nan.isSet = false := by decide
  unfold obsShouldAccept periodMs
  rw [hlimits]
  cases obsShouldAccept.limitsPass o t s with
  | error e => rfl
  | ok inLimits =>
    cases inLimits with
    | false => rfl
    | true =>
      cases current with
      | none => rfl
      | some previous =>
        simp only [ok_bind, Bool.not_true, Bool.false_eq_true, if_false, hpasses]
        cases obsShouldAccept.changePasses P ctx o overridden t s previous with
        | error e => rfl
        | ok changed =>
          cases changed with
          | false => rfl
          | true =>
            simp only [ok_bind, Bool.not_true, Bool.false_eq_true, if_false, hnan, Bool.false_and]
            cases o.minPeriod.isSet with
            | false => rfl
            | true =>
              cases (P.ofNat ((getRelativeTimeMs ctx.env + 2 ^ 32 - o.lastPushTime) % 2 ^ 32)).lt
                (P.mul o.minPeriod .thousand) <;> rfl

theorem filtersAccept_period : filtersAccept P ctx x o o.minPeriod t s =
    (filtersAccept P ctx x o .nan t s && (x.currentValue.isNone || !o.minPeriod.isSet ||
      !(P.ofNat ((getRelativeTimeMs ctx.env + 2 ^ 32 - o.lastPushTime) % 2 ^ 32)).lt
        (periodMs P o))) := by
  unfold filtersAccept
  cases shown P ctx o t s with
  | error e => rfl
  | ok extracted =>
    cases extracted with
    | none => rfl
    | some p => exact shouldAccept_period

/-! ### The last push that was accepted -/

/-- The Observation remembers the last of these times. -/
def Remembers (o : Observation) (accepted : List Nat) : Prop :=
  ∀ last, accepted.getLast? = some last → o.lastPushTime = last % 2 ^ 32

theorem remembers_nil : Remembers o [] := by
  intro last hlast
  cases hlast

theorem Remembers.congr {accepted : List Nat} (h : Remembers o accepted)
    (hlast : o'.lastPushTime = o.lastPushTime) : Remembers o' accepted :=
  fun last hl => hlast.trans (h last hl)

theorem remembers_push (accepted : List Nat) {now : Nat} (h : o.lastPushTime = now % 2 ^ 32) :
    Remembers o (accepted ++ [now]) := by
  intro last hlast
  rw [List.getLast?_append_of_ne_nil _ (by simp)] at hlast
  cases hlast
  exact h

theorem acceptances_append (log log' : List Event) :
    acceptances P r (log ++ log') = acceptances P r log ++ acceptances P r log' :=
  List.filterMap_append

/-- Only pushes are accepted. -/
theorem acceptances_quiet (hquiet : ∀ e ∈ evs, e.isPushing = false) : acceptances P r evs = [] := by
  refine List.filterMap_eq_nil_iff.mpr fun e he => ?_
  have := hquiet e he
  cases e <;> first | rfl | cases this

/-- What a push to an Observation does to its record of the last push. -/
theorem lastPushTime_push {p : Pushed} (hx : Typed x) (ho : x.cls = .observation o)
    (hs : s.type = t) (hlocal : resPushLocal P ctx .observation x t u s = .ok p)
    (ho' : p.accepted.cls = .observation o') :
    o'.lastPushTime =
      if letsThrough P ctx x t { s with via := u } = true then getRelativeTimeMs ctx.env
      else o.lastPushTime := by
  obtain ⟨a, ha, hcls⟩ := resPushLocal_admission hlocal
  rw [cls_accepted, hcls] at ho'
  unfold admission at ha
  simp only [ho] at ha
  unfold letsThrough filtersAccept
  simp only [ho]
  rcases obsAdmit_steps ha with ⟨hnone, rfl⟩ | ⟨t', s₁, o₁, s₂, verdict, hsteps⟩
  · have hshown : shown P ctx o t { s with via := u } = .ok none := by
      unfold shown
      rw [hnone]
      rfl
    cases ho.symm.trans ho'
    simp [hshown]
  · have htype := ((sat_doJsonExtraction (s := { s with via := u }) (B := fun _ => False)
      (fun hb => hb.elim) hs).result hsteps.extracted t' s₁ rfl).1
    obtain ⟨_, _, _, hset, hlast⟩ := (sat_processAccepted (B := fun _ => False)
      (hx.buffer o ho) htype).result hsteps.processed
    obtain ⟨v, hv, rfl⟩ := judged_before hset hlast hsteps.judged
    rw [hsteps.res] at ho'
    simp only [hsteps.shown, hv, passes]
    cases v with
    | none =>
      cases ho'
      exact hlast
    | some accepted =>
      cases ho'
      rfl

/-- An edit that is not a push logs none, and leaves the record of the last one alone. -/
theorem Edit.push_or_quiet {updating : Bool} (hedit : Edit P r updating et x evs x') :
    (∃ ctx t u s p, s.type = t ∧ resPushLocal P ctx et x t u s = .ok p ∧ x' = p.accepted ∧
      evs = .receiving r et s :: .pushing r ctx x t u s :: p.events.map (.obs r)) ∨
    (∀ e ∈ evs, e.isPushing = false) ∧ ∀ o', x'.cls = .observation o' →
      ∃ o, x.cls = .observation o ∧ o'.lastPushTime = o.lastPushTime := by
  have hobs : ∀ obsEvs : List ObsEvent, ∀ e ∈ obsEvs.map (Event.obs r), e.isPushing = false := by
    simp [Event.isPushing]
  cases hedit with
  | push ctx t u s hs p hctx hp hlocal => exact .inl ⟨ctx, t, u, s, p, hs, hlocal, rfl, rfl⟩
  | observe ho hstep hkept hlast =>
    exact .inr ⟨hobs _, fun o' ho' => ⟨_, ho, by cases ho'; exact hlast⟩⟩
  | configure ho hstep setting hset v hv hkept hlast =>
    refine .inr ⟨fun e he => ?_, fun o' ho' => ⟨_, ho, by cases ho'; exact hlast⟩⟩
    rcases List.mem_append.mp he with he | he
    · exact hobs _ e he
    · exact List.mem_singleton.mp he ▸ rfl
  | extraction ho hstep hkept hlast =>
    refine .inr ⟨fun e he => ?_, fun o' ho' => ⟨_, ho, by cases ho'; exact hlast⟩⟩
    rcases List.mem_append.mp he with he | he
    · exact hobs _ e he
    · exact List.mem_singleton.mp he ▸ rfl
  | restore env content ho hrestore =>
    obtain ⟨_, _, hlast, _⟩ := (sat_restoreContent_bufferOk env content).result hrestore
    refine .inr ⟨fun e he => ?_, fun o' ho' => ⟨_, ho, by cases ho'; exact hlast⟩⟩
    rcases List.mem_cons.mp he with rfl | he
    · rfl
    · exact hobs _ e he
  | override =>
    rw [Resource.withOverride, cls_accept]
    exact .inr ⟨by simp, fun o' ho' => ⟨o', ho', rfl⟩⟩
  | unoverride =>
    rw [cls_unoverride]
    exact .inr ⟨by simp [Event.isPushing], fun o' ho' => ⟨o', ho', rfl⟩⟩
  | default =>
    rw [cls_withDefault]
    exact .inr ⟨by simp, fun o' ho' => ⟨o', ho', rfl⟩⟩
  | optional t mandatory hc => exact .inr ⟨by simp, fun o' ho' => by cases ho'⟩
  | _ => exact .inr ⟨by simp [Event.isPushing], fun o' ho' => ⟨o', ho', rfl⟩⟩

theorem Edit.observation_before {updating : Bool} (hedit : Edit P r updating et x evs x')
    (ho' : x'.cls = .observation o') : ∃ o, x.cls = .observation o := by
  obtain ⟨_, _, _, hcls⟩ := hedit.classEdit
  rw [ho'] at hcls
  generalize x.cls = cls at hcls
  cases hcls <;> exact ⟨_, rfl⟩

theorem acceptances_push (q : ResRef) (obsEvs : List ObsEvent) :
    acceptances P r (.receiving q et s :: .pushing q ctx x t u s :: obsEvs.map (.obs q)) =
      if q = r ∧ letsThrough P ctx x t { s with via := u } = true then
        [clockMs ctx.env] else [] := by
  have hobs : (obsEvs.map (.obs q)).filterMap (Event.acceptedAt P r) = [] :=
    acceptances_quiet (by simp [Event.isPushing])
  unfold acceptances
  rw [List.filterMap_cons_none rfl]
  split
  · next hc =>
    have hat : Event.acceptedAt P r (.pushing q ctx x t u s) = some (clockMs ctx.env) := if_pos hc
    rw [List.filterMap_cons_some hat, hobs]
  · next hc =>
    have hat : Event.acceptedAt P r (.pushing q ctx x t u s) = none := if_neg hc
    rw [List.filterMap_cons_none hat, hobs]

theorem remembers_edit {updating : Bool} {accepted : List Nat} (hcls : ClassOk et x.cls)
    (hx : Typed x) (hedit : Edit P r updating et x evs x')
    (h : ∀ o, x.cls = .observation o → Remembers o accepted) (ho' : x'.cls = .observation o') :
    Remembers o' (accepted ++ acceptances P r evs) := by
  obtain ⟨o, ho⟩ := hedit.observation_before ho'
  rcases hedit.push_or_quiet with ⟨ctx, t, u, s, p, hs, hlocal, rfl, rfl⟩ | ⟨hquiet, hsame⟩
  · have het : et = .observation := by
      rw [ho] at hcls
      cases et <;> first | rfl | cases hcls
    subst het
    have hlast := lastPushTime_push hx ho hs hlocal ho'
    rw [acceptances_push]
    cases hlets : letsThrough P ctx x t { s with via := u } with
    | true =>
      rw [hlets] at hlast
      rw [if_pos ⟨rfl, rfl⟩]
      exact remembers_push _ hlast
    | false =>
      rw [hlets] at hlast
      rw [if_neg (by simp), List.append_nil]
      exact (h o ho).congr hlast
  · obtain ⟨o, ho, hlast⟩ := hsame o' ho'
    rw [acceptances_quiet hquiet, List.append_nil]
    exact (h o ho).congr hlast

/-- Observations remember when they accepted the last push, and did so at each push; numbers that
are still to be given out have no history. -/
structure RemembersAll (P : Platform) (h : Hub) : Prop where
  now : ∀ r x o, h.resources r = some x → x.cls = .observation o →
    Remembers o (acceptances P r h.log)
  before : ∀ before r ctx x t u s after o, h.log = before ++ .pushing r ctx x t u s :: after →
    x.cls = .observation o → Remembers o (acceptances P r before)
  unused : ∀ r, h.nextRes ≤ r → acceptances P r h.log = []

theorem remembersAll_boot (env : Environment) (files : List (CString × Bytes)) :
    RemembersAll P (boot env files) := by
  refine ⟨fun r x o hx => ?_, fun before r ctx x t u s after o hlog => ?_, fun _ _ => rfl⟩
  · cases hx
  · have := congrArg List.length hlog
    simp [boot] at this

/-- An entry of a log that has grown was there before, or it is new. -/
theorem split_grown {e : Event} {before after : List Event}
    (h : log ++ evs = before ++ e :: after) :
    (∃ rest, log = before ++ e :: rest) ∨ ∃ pre, before = log ++ pre ∧ evs = pre ++ e :: after := by
  rcases List.append_eq_append_iff.mp h with ⟨pre, hbefore, hevs⟩ | ⟨rest, hlog, hafter⟩
  · exact .inr ⟨pre, hbefore, hevs⟩
  · cases rest with
    | nil => exact .inr ⟨[], by simpa using hlog.symm, by simpa using hafter.symm⟩
    | cons e' rest =>
      cases hafter
      exact .inl ⟨rest, hlog⟩

theorem split_pushing {q : ResRef} {obsEvs : List ObsEvent} {ctx' : ObsContext} {t' : DataType}
    {u' : CString} {s' : DataSample} {pre after : List Event}
    (h : .receiving q et s :: .pushing q ctx x t u s :: obsEvs.map (.obs q) =
      pre ++ .pushing r ctx' x' t' u' s' :: after) :
    r = q ∧ x' = x ∧ pre = [.receiving q et s] := by
  cases pre with
  | nil => cases (List.cons.inj h).1
  | cons a pre =>
    obtain ⟨ha, htail⟩ := List.cons.inj h
    cases pre with
    | nil =>
      obtain ⟨he, _⟩ := List.cons.inj htail
      obtain ⟨rfl, _, rfl, _⟩ := Event.pushing.inj he
      exact ⟨rfl, rfl, by rw [ha]⟩
    | cons b pre =>
      obtain ⟨_, hobs⟩ := List.cons.inj htail
      have hmem : Event.pushing r ctx' x' t' u' s' ∈ obsEvs.map (.obs q) := by simp [hobs]
      obtain ⟨ev, _, hev⟩ := List.mem_map.mp hmem
      cases hev

theorem remembersAll_micro (hwf : WellFormed h) (hm : Micro P h h') (hall : RemembersAll P h) :
    RemembersAll P h' := by
  obtain ⟨evs, hlog, hlogs⟩ := logs_micro hwf hm
  have hunused : ∀ r, h'.nextRes ≤ r → acceptances P r h.log = [] := fun r hr =>
    hall.unused r (Nat.le_trans (dead_micro (r := 0) hwf hm).1 hr)
  have hgrown : (∀ pre r ctx x t u s after o, evs = pre ++ .pushing r ctx x t u s :: after →
      x.cls = .observation o → Remembers o (acceptances P r (h.log ++ pre))) →
      ∀ before r ctx x t u s after o, h'.log = before ++ .pushing r ctx x t u s :: after →
      x.cls = .observation o → Remembers o (acceptances P r before) := by
    intro hnew before r ctx x t u s after o hsplit ho
    rw [hlog] at hsplit
    rcases split_grown hsplit with ⟨rest, hold⟩ | ⟨pre, rfl, hevs⟩
    · exact hall.before before r ctx x t u s rest o hold ho
    · exact hnew pre r ctx x t u s after o hevs ho
  have hquiet : (∀ e ∈ evs, e.isPushing = false) → RemembersAll P h' := by
    intro hquiet
    have hacc : ∀ r, acceptances P r h'.log = acceptances P r h.log := by
      intro r
      rw [hlog, acceptances_append, acceptances_quiet hquiet, List.append_nil]
    refine ⟨fun r x' o' hx' ho' => ?_, hgrown fun pre r ctx x t u s after o hevs _ => ?_,
      fun r hr => (hacc r).trans (hunused r hr)⟩
    · rw [hacc]
      have hfrom := class_micro hwf hm hx'
      rw [ho'] at hfrom
      cases hfrom with
      | same hx hc => exact hall.now r _ o' hx hc
      | @edit x x₁ entry evs' hx he hedit hlog' hc =>
        cases List.append_cancel_left (hlog.symm.trans hlog')
        have := remembers_edit (hwf.cls r x entry hx he) (hwf.typed r x entry hx he) hedit
          (fun o ho => hall.now r x o hx ho) hc
        rwa [acceptances_quiet hquiet, List.append_nil] at this
      | created hy hc hr =>
        rw [hr, hall.unused _ (Nat.le_refl _)]
        exact remembers_nil
    · have := hquiet (.pushing r ctx x t u s) (by simp [hevs])
      cases this
  cases hlogs with
  | notes hn => exact hquiet fun e he => by cases hn.note e he <;> rfl
  | endUpdate => exact hquiet (by simp [Event.isPushing])
  | attach => exact hquiet (by simp [Event.isPushing])
  | replace => exact hquiet (by simp [Event.isPushing])
  | free => exact hquiet (by simp [Event.isPushing])
  | @edit q x x' entry _ hx he hedit hsame =>
    rcases hedit.push_or_quiet with ⟨ctx, t, u, s, p, hs, hlocal, rfl, hevs⟩ | ⟨hno, _⟩
    · refine ⟨fun r y o' hy ho' => ?_, hgrown ?_, fun r hr => ?_⟩
      · rw [hlog, acceptances_append]
        rw [hsame.resources] at hy
        by_cases hq : r = q
        · subst hq
          simp only [Hub.setResource, Function.update_self, Option.some.injEq] at hy
          subst hy
          exact remembers_edit (hwf.cls r x entry hx he) (hwf.typed r x entry hx he) hedit
            (fun o ho => hall.now r x o hx ho) ho'
        · simp only [Hub.setResource, Function.update_of_ne hq] at hy
          rw [hevs, acceptances_push, if_neg (fun hc => hq hc.1.symm), List.append_nil]
          exact hall.now r y o' hy ho'
      · intro pre r ctx' x' t' u' s' after o hsplit ho
        obtain ⟨rfl, rfl, rfl⟩ := split_pushing (hevs.symm.trans hsplit)
        have hquiet : acceptances P r [.receiving r entry.type s] = [] := rfl
        rw [acceptances_append, hquiet, List.append_nil]
        exact hall.now r x' o hx ho
      · rw [hlog, acceptances_append, hunused r hr, hevs, acceptances_push, if_neg]
        · rfl
        · rintro ⟨rfl, _⟩
          exact Nat.lt_irrefl _ (Nat.lt_of_lt_of_le (hwf.res_lt q x hx)
            (Nat.le_trans (dead_micro (r := 0) hwf hm).1 hr))
    · exact hquiet hno

theorem reachable_remembersAll (hr : Reachable P h) : RemembersAll P h :=
  reachable_induction (fun _ => True) remembersAll_boot
    (fun _ _ hwf hm _ hall => remembersAll_micro hwf hm hall) hr fun _ _ => trivial

/-! ### The law -/

theorem pushedAt_of_acceptedAt {e : Event} {now : Nat} (h : e.acceptedAt P r = some now) :
    e.pushedAt = some now := by
  cases e with
  | pushing q ctx x t u s =>
    simp only [Event.acceptedAt, Option.ite_none_right_eq_some] at h
    exact h.2
  | _ => cases h

theorem acceptances_sublist (log : List Event) :
    (acceptances P r log).Sublist (log.filterMap Event.pushedAt) := by
  induction log with
  | nil => exact .slnil
  | cons e log ih =>
    unfold acceptances at ih ⊢
    cases hat : e.acceptedAt P r with
    | none =>
      rw [List.filterMap_cons_none hat]
      cases hpush : e.pushedAt with
      | none => rwa [List.filterMap_cons_none hpush]
      | some now =>
        rw [List.filterMap_cons_some hpush]
        exact ih.cons _
    | some now =>
      rw [List.filterMap_cons_some hat, List.filterMap_cons_some (pushedAt_of_acceptedAt hat)]
      exact ih.cons_cons _

/-- At a push, no clock of an accepted one before it is later, and none is later than the last. -/
theorem le_clock {before after : List Event}
    (hclock : ClockRises (before ++ .pushing r ctx x t u s :: after)) :
    (∀ last ∈ acceptances P r before, last ≤ clockMs ctx.env) ∧
      ∀ last, (acceptances P r before).getLast? = some last →
        ∀ l ∈ acceptances P r before, l ≤ last := by
  unfold ClockRises at hclock
  rw [List.filterMap_append, List.filterMap_cons_some (f := Event.pushedAt) rfl] at hclock
  obtain ⟨hbefore, _, hcross⟩ := List.pairwise_append.mp hclock
  have hsub := acceptances_sublist (P := P) (r := r) before
  refine ⟨fun last hlast => hcross last (hsub.subset hlast) _ (List.mem_cons_self ..), ?_⟩
  intro last hlast l hl
  obtain ⟨pre, hpre⟩ := List.getLast?_eq_some_iff.mp hlast
  have hpw := hbefore.sublist hsub
  rw [hpre] at hl hpw
  rcases List.mem_append.mp hl with hl | hl
  · exact (List.pairwise_append.mp hpw).2.2 l hl last (List.mem_singleton_self _)
  · exact Nat.le_of_eq (List.mem_singleton.mp hl)

/-- Any two accepted pushes are at least the minimum period apart, and none is turned down for it
without reason, in every run in which each push finds the Observation in a state in which the period
is judged rightly. -/
theorem throttles_of_judges (hP : P.ExactBelow (2 ^ 32)) (hr : Reachable P h)
    (hclock : ClockRises h.log) (hj : JudgesPeriods P h.log) : Throttles P h.log := by
  intro before r ctx x t u s after o hlog ho hset
  have hjudges := hj before r ctx x t u s after o hlog ho hset
  have hremembers := (reachable_remembersAll hr).before before r ctx x t u s after o hlog ho
  rw [hlog] at hclock
  obtain ⟨hle, hlatest⟩ := le_clock (P := P) hclock
  have hlets : letsThrough P ctx x t { s with via := u } =
      filtersAccept P ctx x o o.minPeriod t { s with via := u } := by
    unfold letsThrough
    rw [ho]
  rw [hlets, filtersAccept_period, hset]
  unfold judgesPeriod at hjudges
  cases hcurrent : x.currentValue with
  | none =>
    rw [hcurrent] at hjudges
    refine ⟨fun _ => hjudges, fun hothers hreject => ?_⟩
    simp [hothers] at hreject
  | some previous =>
    rw [hcurrent] at hjudges
    obtain ⟨last, hlast, hwrap⟩ := hjudges
    have hmem := List.mem_of_getLast? hlast
    have helapsed : (getRelativeTimeMs ctx.env + 2 ^ 32 - o.lastPushTime) % 2 ^ 32 =
        (clockMs ctx.env - last) % 2 ^ 32 := by
      have := hle last hmem
      rw [hremembers last hlast, getRelativeTimeMs_eq]
      omega
    have hlt := (hP _ (Nat.mod_lt (clockMs ctx.env - last) (Nat.two_pow_pos 32))).lt_iff
      (d := periodMs P o)
    rw [helapsed]
    refine ⟨fun haccept l hl hwithin => ?_, fun hothers hreject => ⟨last, hmem, hwrap ?_⟩⟩
    · -- an earlier acceptance is even longer ago than the rest of the time since the latest one
      have hmono : (clockMs ctx.env - last) % 2 ^ 32 ≤ clockMs ctx.env - l :=
        (Nat.mod_le _ _).trans (Nat.sub_le_sub_left (hlatest last hlast l hl) _)
      rw [hlt.mpr (hwithin.mono hmono)] at haccept
      simp at haccept
    · exact hlt.mp (by simpa [hothers] using hreject)

/-- The entries of a log, each with those before it. -/
def splits (log : List Event) : List (List Event × Event) :=
  (List.range log.length).filterMap fun i => log[i]?.map fun e => (log.take i, e)

theorem mem_splits {before : List Event} {e : Event} :
    (before, e) ∈ splits log ↔ ∃ after, log = before ++ e :: after := by
  unfold splits
  constructor
  · intro hmem
    obtain ⟨i, hi, hsome⟩ := List.mem_filterMap.mp hmem
    obtain ⟨e', he', heq⟩ := Option.map_eq_some_iff.mp hsome
    cases heq
    obtain ⟨hlt, rfl⟩ := List.getElem?_eq_some_iff.mp he'
    exact ⟨log.drop (i + 1), by rw [List.cons_getElem_drop_succ, List.take_append_drop]⟩
  · rintro ⟨after, rfl⟩
    refine List.mem_filterMap.mpr ⟨before.length, by simp, ?_⟩
    simp

/-- Enough for a push to find an Observation in a state in which the period is judged rightly. -/
def soonEnough (P : Platform) (before : List Event) : Event → Bool
  | .pushing r ctx x .. =>
    match x.currentValue, (acceptances P r before).getLast? with
    | none, none => true
    | some _, some last => decide (clockMs ctx.env - last < 2 ^ 32)
    | _, _ => false
  | _ => true

theorem judgesPeriods_of_soonEnough
    (hall : (splits log).all (fun p => soonEnough P p.1 p.2) = true) : JudgesPeriods P log := by
  intro before r ctx x t u s after o hlog ho hset
  have hsoon := List.all_eq_true.mp hall _ (mem_splits.mpr ⟨after, hlog⟩)
  unfold soonEnough at hsoon
  unfold judgesPeriod
  dsimp only at hsoon
  split at hsoon
  · next hcurrent hnone =>
    rw [hcurrent, List.getLast?_eq_none_iff.mp hnone]
    simp
  · next last hcurrent hlast =>
    rw [hcurrent]
    refine ⟨last, hlast, ?_⟩
    rw [Nat.mod_eq_of_lt (of_decide_eq_true hsoon)]
    exact id
  · cases hsoon

/-- Pushes four seconds apart, with a minimum period of three. -/
def spacedRun : List Op :=
  [.adminCreateObs (ascii "o"),
   .adminSetMinPeriod (ascii "o") (double 3),
   .adminPush (ascii "/obs/o") (double 3) (.numeric (double 30)),
   .environment { smallEnvironment with relSec := 54 },
   .adminPush (ascii "/obs/o") (double 4) (.numeric (double 40))]

theorem throttles_of_judges_spacedRun : ∃ h, Reachable smallPlatform h ∧
    acceptances smallPlatform 0 h.log = [50000, 54000] ∧ Throttles smallPlatform h.log := by
  have hrun : smallRunEnds spacedRun (fun h =>
      decide (acceptances smallPlatform 0 h.log = [50000, 54000]) &&
        decide ((h.log.filterMap Event.pushedAt).Pairwise (· ≤ ·)) &&
        (splits h.log).all fun p => soonEnough smallPlatform p.1 p.2) = true := by
    decide +kernel
  obtain ⟨h, hr, hp⟩ := exists_of_smallRunEnds hrun
  simp only [Bool.and_eq_true, decide_eq_true_eq] at hp
  exact ⟨h, hr, hp.1.1, throttles_of_judges (fun n hn => smallPlatform_exact n (by omega)) hr
    hp.1.2 (judgesPeriods_of_soonEnough hp.2)⟩

/-- The second push comes `2 ^ 32` ms and one second after the first. -/
def wrappedRun : List Op :=
  [.adminCreateObs (ascii "o"),
   .adminSetMinPeriod (ascii "o") (double 3),
   .adminPush (ascii "/obs/o") (double 3) (.numeric (double 30)),
   .environment { smallEnvironment with relSec := 4295018, relUsec := 296000 },
   .adminPush (ascii "/obs/o") (double 4) (.numeric (double 40))]

/-- A push is turned down for the period alone, though the last accepted one is long ago. -/
def turnedDown (before : List Event) : Event → Bool
  | .pushing r ctx x t u s =>
    match x.cls with
    | .observation o =>
      o.minPeriod.isSet && filtersAccept smallPlatform ctx x o .nan t { s with via := u } &&
        !letsThrough smallPlatform ctx x t { s with via := u } &&
        (acceptances smallPlatform r before).all fun last =>
          decide (clockMs ctx.env - last < 2 ^ 53) &&
            !(double (clockMs ctx.env - last)).lt (periodMs smallPlatform o)
    | _ => false
  | _ => false

theorem not_throttles_of_turnedDown (hany : (splits log).any (fun p => turnedDown p.1 p.2) = true) :
    ¬ Throttles smallPlatform log := by
  intro hthrottles
  obtain ⟨⟨before, e⟩, hmem, hdown⟩ := List.any_eq_true.mp hany
  obtain ⟨after, hlog⟩ := mem_splits.mp hmem
  unfold turnedDown at hdown
  dsimp only at hdown
  split at hdown
  · next r ctx x t u s =>
    split at hdown
    · next o ho =>
      simp only [Bool.and_eq_true, Bool.not_eq_true', List.all_eq_true, decide_eq_true_eq] at hdown
      obtain ⟨⟨⟨hset, hothers⟩, hreject⟩, hlong⟩ := hdown
      obtain ⟨last, hlast, hwithin⟩ :=
        (hthrottles before r ctx x t u s after o hlog ho hset).2 hothers hreject
      obtain ⟨hlt, hnot⟩ := hlong last hlast
      rw [(isNat_double hlt).lt_iff.mpr hwithin] at hnot
      cases hnot
    · cases hdown
  · cases hdown

theorem throttles_fails : ∃ h, Reachable smallPlatform h ∧ ClockRises h.log ∧
    ¬ Throttles smallPlatform h.log := by
  have hrun : smallRunEnds wrappedRun (fun h =>
      decide ((h.log.filterMap Event.pushedAt).Pairwise (· ≤ ·)) &&
        (splits h.log).any fun p => turnedDown p.1 p.2) = true := by
    decide +kernel
  obtain ⟨h, hr, hp⟩ := exists_of_smallRunEnds hrun
  simp only [Bool.and_eq_true, decide_eq_true_eq] at hp
  exact ⟨h, hr, hp.1, not_throttles_of_turnedDown hp.2⟩

end MangOH.DataHub
