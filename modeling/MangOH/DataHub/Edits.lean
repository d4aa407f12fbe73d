import MangOH.DataHub.Micro

/-! What every edit of a resource leaves alone, and why samples keep the types recorded for them. -/
namespace MangOH.DataHub

open Outcome

variable {P : Platform} {r : ResRef} {updating : Bool} {et : EntryType} {x x' : Resource}
  {evs : List Event} {s : DataSample} {t : DataType} {u : CString} {p : Pushed}

/-- Everything about a resource that places it in the tree and in the graph of routes, and its
handlers. -/
structure SamePlace (x x' : Resource) : Prop where
  entryRef : x'.entryRef = x.entryRef
  srcPtr : x'.srcPtr = x.srcPtr
  destList : x'.destList = x.destList
  pushHandlerList : x'.pushHandlerList = x.pushHandlerList

theorem SamePlace.refl (x : Resource) : SamePlace x x := ⟨rfl, rfl, rfl, rfl⟩

theorem SamePlace.trans {x'' : Resource} (h : SamePlace x x') (h' : SamePlace x' x'') :
    SamePlace x x'' :=
  ⟨h'.entryRef.trans h.entryRef, h'.srcPtr.trans h.srcPtr, h'.destList.trans h.destList,
    h'.pushHandlerList.trans h.pushHandlerList⟩

theorem SamePlace.accept (h : SamePlace x x') (t : DataType) (s : DataSample) :
    SamePlace x (x'.accept t s) := by
  unfold Resource.accept
  split
  · exact ⟨h.entryRef, h.srcPtr, h.destList, h.pushHandlerList⟩
  · exact h

theorem cls_accept (x : Resource) (t : DataType) (s : DataSample) :
    (x.accept t s).cls = x.cls := by
  unfold Resource.accept
  split <;> rfl

theorem PushOutcome.samePlace (h : PushOutcome P et x u p) : SamePlace x p.res := by
  cases h <;> exact ⟨rfl, rfl, rfl, rfl⟩

theorem PushOutcome.run (h : PushOutcome P et x u p) : ClassRun P x.cls p.events p.res.cls := by
  cases h with
  | filtered hc => exact hc
  | suspended hc => exact hc
  | overridden hc => exact hc
  | mismatched => exact .refl _
  | coerced => exact .refl _
  | taken hc => exact hc

theorem samePlace_accepted (p : Pushed) : SamePlace p.res p.accepted := by
  unfold Pushed.accepted
  split
  · exact .refl _
  · exact (SamePlace.refl _).accept _ _

theorem cls_accepted (p : Pushed) : p.accepted.cls = p.res.cls := by
  unfold Pushed.accepted
  split
  · rfl
  · exact cls_accept _ _ _

theorem samePlace_withDefault (x : Resource) (t : DataType) (s : DataSample) :
    SamePlace x (x.withDefault t s) := by
  unfold Resource.withDefault
  dsimp only
  split
  · refine SamePlace.accept ?_ _ _
    exact ⟨rfl, rfl, rfl, rfl⟩
  · exact ⟨rfl, rfl, rfl, rfl⟩

theorem cls_withDefault (x : Resource) (t : DataType) (s : DataSample) :
    (x.withDefault t s).cls = x.cls := by
  unfold Resource.withDefault
  dsimp only
  split
  · exact cls_accept _ _ _
  · rfl

theorem samePlace_withOverride (x : Resource) (t : DataType) (s : DataSample) :
    SamePlace x (x.withOverride t s) := by
  refine SamePlace.accept ?_ _ _
  exact ⟨rfl, rfl, rfl, rfl⟩

theorem samePlace_unoverride (x : Resource) : SamePlace x x.unoverride := by
  unfold Resource.unoverride
  split
  · exact .refl _
  · split
    · refine SamePlace.accept ?_ _ _
      exact ⟨rfl, rfl, rfl, rfl⟩
    · exact ⟨rfl, rfl, rfl, rfl⟩

theorem cls_unoverride (x : Resource) : x.unoverride.cls = x.cls := by
  unfold Resource.unoverride
  split
  · rfl
  · split
    · exact cls_accept _ _ _
    · rfl

theorem Edit.samePlace (h : Edit P r updating et x evs x') : SamePlace x x' := by
  cases h with
  | push ctx t u s hs p hctx hp => exact hp.samePlace.trans (samePlace_accepted p)
  | override => exact samePlace_withOverride _ _ _
  | unoverride => exact samePlace_unoverride _
  | default => exact samePlace_withDefault _ _ _
  | _ => exact ⟨rfl, rfl, rfl, rfl⟩

/-! ### Classes -/

theorem ClassOk.observation {o o' : Observation} {cls : ResourceClass}
    (h : ClassOk et cls) (hx : cls = .observation o) : ClassOk et (.observation o') := by
  subst hx
  cases et <;> exact h

theorem Edit.classOk (h : Edit P r updating et x evs x') (hx : ClassOk et x.cls) :
    ClassOk et x'.cls := by
  cases h with
  | push ctx t u s hs p hctx hp =>
    rw [cls_accepted]
    exact hp.run.classOk hx
  | override =>
    rw [Resource.withOverride, cls_accept]
    exact hx
  | unoverride =>
    rw [cls_unoverride]
    exact hx
  | default =>
    rw [cls_withDefault]
    exact hx
  | optional t mandatory hio =>
    rw [hio] at hx
    cases et <;> simp_all [ClassOk]
  | observe ho => exact hx.observation ho
  | configure ho => exact hx.observation ho
  | extraction ho => exact hx.observation ho
  | restore env content ho => exact hx.observation ho
  | _ => exact hx

/-! ### Types -/

theorem ObsRun.bufferOk {o o' : Observation} {log : List ObsEvent} (h : ObsRun P o log o')
    (ho : o.BufferOk) : o'.BufferOk := by
  induction h with
  | refl => exact ho
  | step _ hs ih => exact bufferOk_step hs ih

/-- Another class for the same resource: the buffer is all that has to be checked. -/
theorem Typed.withClass (h : Typed x) {cls : ResourceClass}
    (hfixed : ∀ t mandatory, cls = .ioPoint t mandatory → x.currentType = t)
    (hbuffer : ∀ o, cls = .observation o → o.BufferOk) : Typed { x with cls } :=
  ⟨h.current, h.pushed, h.override, h.default, h.jsonExample, hfixed, hbuffer⟩

theorem Typed.withObservation (h : Typed x) {o : Observation} (ho : o.BufferOk) :
    Typed { x with cls := .observation o } := by
  refine h.withClass (by simp) ?_
  rintro _ ⟨⟩
  exact ho

theorem Typed.run (h : Typed x) {cls : ResourceClass} {evs : List ObsEvent}
    (hrun : ClassRun P x.cls evs cls) : Typed { x with cls } := by
  have hb := h.buffer
  have hf := h.fixed
  generalize hc : x.cls = c at hrun hb hf
  cases hrun with
  | refl => exact h.withClass hf hb
  | run hr _ => exact h.withObservation (hr.bufferOk (hb _ rfl))

theorem Typed.record (h : Typed x) (hs : s.type = t) (cls : ResourceClass) :
    Typed { x with cls } → Typed (x.record cls t s) := by
  intro hc
  refine ⟨h.current, ?_, h.override, h.default, h.jsonExample, hc.fixed, hc.buffer⟩
  rintro _ ⟨⟩
  exact hs

theorem Typed.install (h : Typed x) (hs : s.type = t) (hacc : x.acceptable t = true) :
    Typed (x.install t s) := by
  refine ⟨?_, h.pushed, h.override, h.default, ?_, ?_, h.buffer⟩
  · rintro _ ⟨⟩
    exact hs
  · intro e he
    simp only [Resource.install] at he
    split at he
    · next ht =>
      cases hj : x.jsonExample with
      | none =>
        rw [hj] at he
        cases he
        exact hs.trans ht
      | some j =>
        rw [hj] at he
        cases he
        exact h.jsonExample _ hj
    · cases he
  · intro fixed mandatory hx
    rw [acceptable_ioPoint (show x.cls = .ioPoint fixed mandatory from hx)] at hacc
    exact of_decide_eq_true hacc

theorem Typed.accept (h : Typed x) (hs : s.type = t) : Typed (x.accept t s) := by
  unfold Resource.accept
  split
  · next hacc => exact h.install hs hacc
  · exact h

theorem PushOutcome.typed (h : PushOutcome P et x u p) (hx : Typed x) :
    Typed p.res ∧ ∀ t s, p.sample = some (t, s) → s.type = t := by
  have hcls := hx.run h.run
  cases h with
  | filtered => exact ⟨hcls, by simp⟩
  | suspended hc t s hs => exact ⟨hx.record hs _ hcls, by simp⟩
  | overridden hc t s hs hv hsusp ho value hvalue =>
    refine ⟨hx.record hs _ hcls, ?_⟩
    rintro _ _ ⟨⟩
    exact (hx.override value hvalue).1
  | mismatched t s hs => exact ⟨hx.record hs _ hcls, by simp⟩
  | coerced t s hs hv hsusp ho hio hu fixed mandatory hfixed coerced hct =>
    refine ⟨hx.record hs _ hcls, ?_⟩
    rintro _ _ ⟨⟩
    exact hct
  | taken hc t s hs =>
    obtain ⟨h₁, h₂, h₃, h₄, h₅, h₆, h₇⟩ := hx.record hs _ hcls
    refine ⟨⟨h₁, h₂, h₃, h₄, h₅, h₆, h₇⟩, ?_⟩
    rintro _ _ ⟨⟩
    exact hs

theorem Typed.accepted (hr : Typed p.res) (hs : ∀ t s, p.sample = some (t, s) → s.type = t) :
    Typed p.accepted := by
  unfold Pushed.accepted
  split
  · exact hr
  · next t s hsample => exact hr.accept (hs t s hsample)

theorem fallback_typed (hx : Typed x) {q : DataType × DataSample} (h : x.fallback = some q) :
    q.2.type = q.1 := by
  unfold Resource.fallback at h
  split at h
  · next s hs =>
    cases h
    unfold Resource.fallback.usable at hs
    split at hs
    · exact hx.pushed s hs
    · cases hs
  · rw [Option.map_eq_some_iff] at h
    obtain ⟨s, hs, rfl⟩ := h
    unfold Resource.fallback.usable at hs
    split at hs
    · exact (hx.default s hs).1
    · cases hs

theorem Typed.dropOverride (h : Typed x) : Typed { x with overrideValue := none } :=
  ⟨h.current, h.pushed, by simp, h.default, h.jsonExample, h.fixed, h.buffer⟩

theorem fallback_dropOverride (x : Resource) :
    Resource.fallback { x with overrideValue := none } = x.fallback := rfl

theorem Typed.unoverride (h : Typed x) : Typed x.unoverride := by
  unfold Resource.unoverride
  split
  · exact h
  · split
    · next t s hs => exact h.dropOverride.accept (fallback_typed h hs)
    · exact h.dropOverride

theorem Typed.withOverride (h : Typed x) (hs : s.type = t) (hv : s.via = []) :
    Typed (x.withOverride t s) := by
  refine Typed.accept ⟨h.current, h.pushed, ?_, h.default, h.jsonExample, h.fixed, h.buffer⟩ hs
  rintro _ ⟨⟩
  exact ⟨hs, hv⟩

theorem Typed.withDefault (h : Typed x) (hs : s.type = t) (hv : s.via = []) :
    Typed (x.withDefault t s) := by
  have hd : Typed { x with defaultValue := some s, defaultType := t } := by
    refine ⟨h.current, h.pushed, h.override, ?_, h.jsonExample, h.fixed, h.buffer⟩
    rintro _ ⟨⟩
    exact ⟨hs, hv⟩
  unfold Resource.withDefault
  dsimp only
  split
  · exact hd.accept hs
  · exact hd

theorem Edit.typed (h : Edit P r updating et x evs x') (hx : Typed x) : Typed x' := by
  cases h with
  | push ctx t u s hs p hctx hp =>
    obtain ⟨hr, hsample⟩ := hp.typed hx
    exact hr.accepted hsample
  | override t s hs hv => exact hx.withOverride hs hv
  | unoverride => exact hx.unoverride
  | default t s hs hv => exact hx.withDefault hs hv
  | undefault =>
    exact ⟨hx.current, hx.pushed, hx.override, by simp, hx.jsonExample, hx.fixed, hx.buffer⟩
  | jsonExample s hs =>
    refine ⟨hx.current, hx.pushed, hx.override, hx.default, ?_, hx.fixed, hx.buffer⟩
    rintro _ ⟨⟩
    exact hs
  | optional t mandatory hio =>
    refine hx.withClass ?_ (by simp)
    rintro _ _ ⟨⟩
    exact hx.fixed t mandatory hio
  | observe ho hs => exact hx.withObservation (bufferOk_step hs (hx.buffer _ ho))
  | configure ho hs setting hset pushedValue hp =>
    obtain ⟨h₁, h₂, h₃, h₄, h₅, h₆, h₇⟩ := hx.withObservation (bufferOk_step hs (hx.buffer _ ho))
    refine ⟨h₁, ?_, h₃, h₄, h₅, h₆, h₇⟩
    rcases hp with rfl | ⟨-, rfl⟩
    · exact h₂
    · simp
  | extraction ho hs => exact hx.withObservation (bufferOk_step hs (hx.buffer _ ho))
  | restore env content ho hr =>
    exact hx.withObservation ((sat_restoreContent_bufferOk env content).result hr).1
  | clearUnits | flag | resume =>
    exact ⟨hx.current, hx.pushed, hx.override, hx.default, hx.jsonExample, hx.fixed, hx.buffer⟩

end MangOH.DataHub
