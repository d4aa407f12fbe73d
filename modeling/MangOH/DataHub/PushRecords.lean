import MangOH.DataHub.Override

/-! The pushed value that a resource has on record, and the pushes that have been accepted. -/
namespace MangOH.DataHub

open Outcome

variable {P : Platform} {h h' : Hub} {et : EntryType} {r : ResRef} {x y : Resource}
  {t : DataType} {s : DataSample} {log evs : List Event} {entry : Entry}

/-- A push to the resource, or to one that it has replaced, has led to this sample. -/
inductive TookPush (P : Platform) (log : List Event) : ResRef → DataType → DataSample → Prop
  | pushed {r : ResRef} {ctx : ObsContext} {x : Resource} {t t' : DataType} {u : CString}
      {s s' : DataSample} {et : EntryType} {p : Pushed} (hmem : .pushing r ctx x t u s ∈ log)
      (hcls : ClassOk et x.cls) (hlocal : resPushLocal P ctx et x t u s = .ok p)
      (hsample : p.sample = some (t', s')) : TookPush P log r t' s'
  | moved {old new : ResRef} {x y : Resource} {et : EntryType} {t : DataType} {s : DataSample}
      (hmem : .replacing old new x et y ∈ log) (h : TookPush P log old t s) :
      TookPush P log new t s

/-- A pushed value is on record, and of a type that the resource accepts. -/
def Resource.onRecord (x : Resource) : Bool := x.pushedValue.isSome && x.acceptable x.pushedType

/-! ### Runs that keep the record well -/

/-- Nothing happens that sets the record and the current value apart: a push of another data type to
an Input or Output, a push that is refused while there is no value, a change of a transform, or a
replacement that drops the current value or the effect of an override. -/
def recordsWell : Event → Prop
  | .pushing _ _ x t u _ => x.acceptable t = true ∧ (x.currentValue = none →
      x.isConfigChanging = false ∧ ∀ fixed mandatory, x.cls = .ioPoint fixed mandatory →
        ¬ x.refusesUnits u)
  | .configured _ setting _ => setting ≠ .transform
  | .replacing old new x et y => keepsOverride (.replacing old new x et y) = true ∧
      (et.isIo = true → x.pushedValue ≠ none →
        x.pushedType = y.currentType ∧ x.currentType = y.currentType)
  | _ => True

/-- A pushed value on record has been accepted, or another one. -/
def Resource.RecordOk (x : Resource) : Prop :=
  x.pushedValue ≠ none → x.acceptable x.pushedType = true ∧ x.currentValue ≠ none

theorem Resource.RecordOk.congr (hx : x.RecordOk) (hval : y.pushedValue = x.pushedValue)
    (htype : y.pushedType = x.pushedType) (hcls : ∀ t, y.acceptable t = x.acceptable t)
    (hcur : x.currentValue ≠ none → y.currentValue ≠ none) : y.RecordOk := by
  intro hpushed
  rw [hval] at hpushed
  obtain ⟨hacc, hsome⟩ := hx hpushed
  exact ⟨by rw [htype, hcls, hacc], hcur hsome⟩

theorem Resource.RecordOk.accept (hx : x.RecordOk) (t : DataType) (s : DataSample) :
    (x.accept t s).RecordOk := by
  unfold Resource.accept
  split
  · exact hx.congr rfl rfl (fun _ => rfl) fun _ => by simp [Resource.install]
  · exact hx

/-- A record whose sample is accepted. -/
theorem recordOk_of_accept (hrecord : x.acceptable x.pushedType = true)
    (hacc : x.acceptable t = true) (s : DataSample) : (x.accept t s).RecordOk := by
  unfold Resource.accept
  rw [if_pos hacc]
  exact fun _ => ⟨hrecord, by simp [Resource.install]⟩

theorem conform_io {env : Environment} {u : CString} {c : Resource × Option (DataType × DataSample)}
    (hio : et.isIo = true) (hc : conform P env et x t u s = .ok c) : c.1 = x := by
  have hsame : ∀ et', et' = .input ∨ et' = .output →
      conform P env et' x t u s = .ok c → c.1 = x := by
    rintro et' (rfl | rfl) hc <;> unfold conform at hc <;> dsimp only at hc <;> split at hc
    · cases hc
      rfl
    · obtain ⟨_, _, hc⟩ := bind_eq_ok.mp hc
      obtain ⟨_, _, hc⟩ := bind_eq_ok.mp hc
      cases hc
      rfl
    · cases hc
      rfl
    · obtain ⟨_, _, hc⟩ := bind_eq_ok.mp hc
      obtain ⟨_, _, hc⟩ := bind_eq_ok.mp hc
      cases hc
      rfl
  refine hsame et ?_ hc
  cases et <;> simp [EntryType.isIo] at hio ⊢

/-- An Input or Output records the type of the push. -/
theorem pushedType_of_io {ctx : ObsContext} {u : CString} {p : Pushed} (hio : et.isIo = true)
    (hlocal : resPushLocal P ctx et x t u s = .ok p) :
    p.res.pushedType = t ∧ p.res.cls = x.cls := by
  let pushed : DataSample := { s with via := u, hops := s.hops + 1 }
  let recorded : Resource := { x with pushedValue := some pushed, pushedType := t }
  have heq : resPushLocal P ctx et x t u s =
      if recorded.isConfigChanging then pure ⟨recorded, [], none⟩
      else applyOverride et recorded t u pushed >>= fun a =>
        conform P ctx.env et recorded a.1 a.2.1 a.2.2 >>= fun c => pure ⟨c.1, [], c.2⟩ := by
    cases et <;> first | rfl | cases hio
  rw [heq] at hlocal
  split at hlocal
  · cases hlocal
    exact ⟨rfl, rfl⟩
  · obtain ⟨a, -, hlocal⟩ := bind_eq_ok.mp hlocal
    obtain ⟨c, hc, hlocal⟩ := bind_eq_ok.mp hlocal
    cases hlocal
    rw [conform_io hio hc]
    exact ⟨rfl, rfl⟩

/-- What the record of a push says of its type, whatever becomes of it. -/
theorem acceptable_record {ctx : ObsContext} {u : CString} {p : Pushed}
    (hcls : ClassOk et x.cls) (hp : PushOutcome P et x u p)
    (hlocal : resPushLocal P ctx et x t u s = .ok p) (hacc : x.acceptable t = true) :
    p.res.acceptable p.res.pushedType = true := by
  cases hio : et.isIo with
  | true =>
    obtain ⟨htype, hsame⟩ := pushedType_of_io hio hlocal
    rw [htype]
    unfold Resource.acceptable at hacc ⊢
    rw [hsame]
    exact hacc
  | false => exact acceptable_of_not_io (hp.run.classOk hcls) hio _

theorem PushOutcome.recordOk {ctx : ObsContext} {u : CString} {p : Pushed}
    (hcls : ClassOk et x.cls) (hp : PushOutcome P et x u p)
    (hlocal : resPushLocal P ctx et x t u s = .ok p)
    (hok : recordsWell (.pushing r ctx x t u s)) (hx : x.RecordOk) : p.accepted.RecordOk := by
  obtain ⟨hacc, hrefused⟩ := hok
  have hrecord := acceptable_record hcls hp hlocal hacc
  cases hp with
  | filtered hc => exact hx.congr rfl rfl hc.acceptable id
  | suspended hc t s hs hv hsusp =>
    refine fun _ => ⟨hrecord, fun hnone => ?_⟩
    cases hsusp.symm.trans (hrefused hnone).1
  | overridden hc t s hs hv hsusp ho value hvalue =>
    refine recordOk_of_accept hrecord ?_ _
    unfold Resource.overridden at ho
    rw [Bool.and_eq_true] at ho
    exact (hc.acceptable _).trans ho.2
  | mismatched t s hs hv hsusp ho hio hu =>
    refine fun _ => ⟨hrecord, fun hnone => ?_⟩
    obtain ⟨fixed, mandatory, hfixed⟩ := ioPoint_of_isIo hcls hio
    exact (hrefused hnone).2 fixed mandatory hfixed hu
  | coerced t s hs hv hsusp ho hio hu fixed mandatory hfixed coerced =>
    have hown := acceptable_ioPoint (x := x.record x.cls t s) hfixed fixed
    exact recordOk_of_accept hrecord (hown.trans (decide_eq_true rfl)) _
  | taken hc t s hs hv hsusp ho hio units =>
    refine recordOk_of_accept hrecord ?_ _
    exact acceptable_of_not_io (hc.classOk hcls) hio _

theorem Edit.recordOk {updating : Bool} {x' : Resource}
    (hcls : ClassOk et x.cls) (hedit : Edit P r updating et x evs x')
    (hok : ∀ e ∈ evs, recordsWell e) (hx : x.RecordOk) : x'.RecordOk := by
  have hobs : ∀ (o o' : Observation) (y : Resource), x.cls = .observation o →
      y.cls = .observation o' → y.pushedValue = x.pushedValue → y.pushedType = x.pushedType →
      y.currentValue = x.currentValue → y.RecordOk := by
    intro o o' y ho hy hval htype hcur
    refine hx.congr hval htype (fun t => ?_) fun hsome => hcur ▸ hsome
    simp [Resource.acceptable, ho, hy]
  cases hedit with
  | push ctx t u s hs p hctx hp hlocal =>
    exact hp.recordOk hcls hlocal (hok (.pushing r ctx x t u s) (by simp)) hx
  | override t s hs hv =>
    exact Resource.RecordOk.accept
      (x := { x with overrideValue := some s, overrideType := t }) hx t s
  | unoverride =>
    unfold Resource.unoverride
    split
    · exact hx
    · split
      · exact Resource.RecordOk.accept (x := { x with overrideValue := none }) hx _ _
      · exact hx
  | default t s hs hv =>
    unfold Resource.withDefault
    dsimp only
    split
    · exact Resource.RecordOk.accept
        (x := { x with defaultValue := some s, defaultType := t }) hx t s
    · exact hx
  | optional t mandatory hio =>
    refine hx.congr rfl rfl (fun _ => ?_) id
    simp [Resource.acceptable, hio]
  | observe ho => exact hobs _ _ _ ho rfl rfl rfl rfl
  | configure ho hstep setting hset pushedValue hp =>
    rcases hp with rfl | ⟨-, rfl⟩
    · exact hobs _ _ _ ho rfl rfl rfl rfl
    · exact fun hsome => absurd rfl hsome
  | extraction ho => exact hobs _ _ _ ho rfl rfl rfl rfl
  | restore env content ho => exact hobs _ _ _ ho rfl rfl rfl rfl
  | _ => exact hx

theorem record_invariant : ResourceInvariant P recordsWell fun _ x => x.RecordOk where
  unrouted _ _ := Iff.rfl
  edit r updating et x evs x' hcls _ hedit hok hx := hedit.recordOk hcls hok hx
  created e et y hy := fun hsome => absurd hy.blank.pushedValue hsome
  handlers _ _ _ hx := hx
  moved old new e et et' x y hre hcls _ hy hok hx := by
    obtain ⟨-, hkeep⟩ := hok
    obtain ⟨hval, htype, -⟩ := moveValues_moved (P := P) x y et'
    have hmoved := cls_moveValues (P := P) x y et'
    intro hpushed
    rw [hval] at hpushed
    obtain ⟨-, hcur⟩ := hx hpushed
    rw [htype]
    rcases moveValues_current (P := P) x y et' with ⟨⟨hio, hne⟩, -⟩ | ⟨-, hv, -⟩
    · exact absurd (hkeep hio hpushed).2 hne
    · refine ⟨?_, hv ▸ hcur⟩
      cases hio : et'.isIo with
      | true =>
        obtain ⟨fixed, mandatory, hyc⟩ := ioPoint_of_isIo hy.classOk hio
        rw [acceptable_ioPoint (hmoved.trans hyc), (hkeep hio hpushed).1, hy.fixed hyc]
        exact decide_eq_true rfl
      | false => exact acceptable_of_not_io (hmoved.symm ▸ hy.classOk) hio _

/-! ### Pushes leave a record -/

def Event.traced : Event → Bool
  | .pushing .. => true
  | .replacing .. => true
  | _ => false

/-- All resources that have taken a push have a pushed value on record; those that have been
replaced are gone. -/
structure Traced (P : Platform) (h : Hub) : Prop where
  replaced : ∀ old new x et y, .replacing old new x et y ∈ h.log →
    old < h.nextRes ∧ new < h.nextRes ∧ h.resources old = none
  recorded : ∀ r t s, TookPush P h.log r t s →
    r < h.nextRes ∧ ∀ x, h.resources r = some x → x.pushedValue ≠ none

/-- Nothing is pushed and nothing replaced. -/
theorem TookPush.of_quiet (htook : TookPush P (log ++ evs) r t s)
    (hquiet : ∀ e ∈ evs, e.traced = false) : TookPush P log r t s := by
  induction htook with
  | pushed hmem hcls hlocal hsample =>
    rcases List.mem_append.mp hmem with hmem | hmem
    · exact .pushed hmem hcls hlocal hsample
    · cases hquiet _ hmem
  | moved hmem _ ih =>
    rcases List.mem_append.mp hmem with hmem | hmem
    · exact .moved hmem ih
    · cases hquiet _ hmem

/-- Resources have been there before, and keep their records. -/
def Recorded (h h' : Hub) : Prop :=
  h.nextRes ≤ h'.nextRes ∧ ∀ r x', r < h.nextRes → h'.resources r = some x' →
    ∃ x, h.resources r = some x ∧ (x.pushedValue ≠ none → x'.pushedValue ≠ none)

theorem Recorded.gone (hrec : Recorded h h') (hlt : r < h.nextRes)
    (hgone : h.resources r = none) : h'.resources r = none := by
  cases hx' : h'.resources r with
  | none => rfl
  | some x' =>
    obtain ⟨x, hx, -⟩ := hrec.2 r x' hlt hx'
    cases hgone.symm.trans hx

theorem Traced.quiet {l : List Event} (htraced : Traced P h) (hlog : h'.log = h.log ++ l)
    (hquiet : ∀ e ∈ l, e.traced = false) (hrec : Recorded h h') : Traced P h' := by
  constructor
  · intro old new x et y hmem
    rw [hlog] at hmem
    rcases List.mem_append.mp hmem with hmem | hmem
    · obtain ⟨hold, hnew, hgone⟩ := htraced.replaced old new x et y hmem
      exact ⟨Nat.lt_of_lt_of_le hold hrec.1, Nat.lt_of_lt_of_le hnew hrec.1, hrec.gone hold hgone⟩
    · cases hquiet _ hmem
  · intro r t s htook
    rw [hlog] at htook
    obtain ⟨hlt, hrecorded⟩ := htraced.recorded r t s (htook.of_quiet hquiet)
    refine ⟨Nat.lt_of_lt_of_le hlt hrec.1, fun x' hx' => ?_⟩
    obtain ⟨x, hx, hkeep⟩ := hrec.2 r x' hlt hx'
    exact hkeep (hrecorded x hx)

theorem pushedValue_accept (y : Resource) (t : DataType) (s : DataSample) :
    (y.accept t s).pushedValue = y.pushedValue := by
  unfold Resource.accept
  split <;> rfl

/-- An edit that is no push. -/
theorem Edit.quiet {updating : Bool} {x' : Resource} (hedit : Edit P r updating et x evs x')
    (hok : ∀ e ∈ evs, recordsWell e) :
    (∀ e ∈ evs, e.traced = false) ∧ (x.pushedValue ≠ none → x'.pushedValue ≠ none) ∨
      ∃ ctx t u s p, PushOutcome P et x u p ∧ resPushLocal P ctx et x t u s = .ok p ∧
        x' = p.accepted ∧
        evs = .receiving r et s :: .pushing r ctx x t u s :: p.events.map (.obs r) := by
  have hobs : ∀ obsEvs : List ObsEvent, ∀ e ∈ obsEvs.map (Event.obs r), e.traced = false := by
    intro obsEvs e he
    obtain ⟨ev, -, rfl⟩ := List.mem_map.mp he
    rfl
  have hends : ∀ (obsEvs : List ObsEvent) (last : Event), last.traced = false →
      ∀ e ∈ obsEvs.map (Event.obs r) ++ [last], e.traced = false := by
    intro obsEvs last hlast e he
    rcases List.mem_append.mp he with he | he
    · exact hobs obsEvs e he
    · exact List.mem_singleton.mp he ▸ hlast
  cases hedit with
  | push ctx t u s hs p hctx hp hlocal => exact .inr ⟨ctx, t, u, s, p, hp, hlocal, rfl, rfl⟩
  | override t s => exact .inl ⟨by simp, fun hx => (pushedValue_accept _ t s).symm ▸ hx⟩
  | unoverride =>
    refine .inl ⟨by simp [Event.traced], fun hx => ?_⟩
    unfold Resource.unoverride
    split
    · exact hx
    · split
      · exact (pushedValue_accept _ _ _).symm ▸ hx
      · exact hx
  | default t s =>
    refine .inl ⟨by simp, fun hx => ?_⟩
    unfold Resource.withDefault
    dsimp only
    split
    · exact (pushedValue_accept _ t s).symm ▸ hx
    · exact hx
  | @configure _ _ obsEvs ho hstep setting hset pushedValue hp =>
    refine .inl ⟨hends obsEvs _ rfl, fun hx => ?_⟩
    rcases hp with rfl | ⟨rfl, -⟩
    · exact hx
    · exact absurd rfl (hok (.configured r .transform updating) (by simp))
  | observe ho => exact .inl ⟨hobs _, id⟩
  | @extraction _ _ obsEvs ho => exact .inl ⟨hends obsEvs _ rfl, id⟩
  | @restore env content _ obsEvs _ ho =>
    refine .inl ⟨fun e he => ?_, id⟩
    rcases List.mem_cons.mp he with rfl | he
    · rfl
    · exact hobs obsEvs e he
  | flag => exact .inl ⟨by simp [Event.traced], id⟩
  | _ => exact .inl ⟨by simp, id⟩

theorem resPushLocal_sameClass {et' : EntryType} {ctx : ObsContext} {u : CString}
    (hcls : ClassOk et x.cls) (hcls' : ClassOk et' x.cls) :
    resPushLocal P ctx et' x t u s = resPushLocal P ctx et x t u s := by
  generalize hc : x.cls = cls at hcls hcls'
  cases cls <;> cases et <;> cases et' <;> first | rfl | exact hcls.elim | exact hcls'.elim

/-- A push that is accepted leaves a record. -/
theorem PushOutcome.recorded {u : CString} {p : Pushed} (hp : PushOutcome P et x u p)
    (hx : x.pushedValue ≠ none ∨ p.sample ≠ none) : p.accepted.pushedValue ≠ none := by
  cases hp with
  | filtered hc => exact hx.resolve_right fun hno => hno rfl
  | suspended | mismatched => simp [Pushed.accepted, Resource.record]
  | overridden | coerced | taken => simp [Pushed.accepted, pushedValue_accept, Resource.record]

theorem TookPush.of_push {ctx : ObsContext} {t' : DataType} {u : CString} {s' : DataSample}
    {p : Pushed} {q : ResRef} (htraced : Traced P h) (hx : h.resources r = some x)
    (hcls : ClassOk et x.cls) (hlocal : resPushLocal P ctx et x t u s = .ok p)
    (htook : TookPush P (h.log ++
      .receiving r et s :: .pushing r ctx x t u s :: p.events.map (.obs r)) q t' s') :
    TookPush P h.log q t' s' ∨ q = r ∧ p.sample ≠ none := by
  have hmem : ∀ e ∈ h.log ++ .receiving r et s :: .pushing r ctx x t u s :: p.events.map (.obs r),
      e.traced = true → e ∈ h.log ∨ e = .pushing r ctx x t u s := by
    intro e he htrace
    rcases List.mem_append.mp he with he | he
    · exact .inl he
    · rcases List.mem_cons.mp he with rfl | he
      · cases htrace
      · rcases List.mem_cons.mp he with rfl | he
        · exact .inr rfl
        · obtain ⟨ev, -, rfl⟩ := List.mem_map.mp he
          cases htrace
  induction htook with
  | pushed hin hcls' hlocal' hsample =>
    rcases hmem _ hin rfl with hin | heq
    · exact .inl (.pushed hin hcls' hlocal' hsample)
    · cases heq
      rw [resPushLocal_sameClass hcls hcls'] at hlocal'
      cases hlocal.symm.trans hlocal'
      exact .inr ⟨rfl, by simp [hsample]⟩
  | moved hin _ ih =>
    rcases hmem _ hin rfl with hlogged | heq
    · rcases ih with htook | ⟨rfl, -⟩
      · exact .inl (.moved hlogged htook)
      · cases (htraced.replaced _ _ _ _ _ hlogged).2.2.symm.trans hx
    · cases heq

theorem TookPush.of_replacing {old : ResRef} {t' : DataType} {s' : DataSample} {q : ResRef}
    (htraced : Traced P h) (hold : old < h.nextRes)
    (htook : TookPush P (h.log ++ [.replacing old h.nextRes x et y]) q t' s') :
    TookPush P h.log q t' s' ∨ q = h.nextRes ∧ TookPush P h.log old t' s' := by
  induction htook with
  | pushed hin hcls' hlocal' hsample =>
    rcases List.mem_append.mp hin with hin | hin
    · exact .inl (.pushed hin hcls' hlocal' hsample)
    · cases List.mem_singleton.mp hin
  | moved hin _ ih =>
    rcases List.mem_append.mp hin with hlogged | hlast
    · rcases ih with htook | ⟨rfl, -⟩
      · exact .inl (.moved hlogged htook)
      · exact absurd (htraced.replaced _ _ _ _ _ hlogged).1 (Nat.lt_irrefl _)
    · cases List.mem_singleton.mp hlast
      rcases ih with htook | ⟨rfl, -⟩
      · exact .inr ⟨rfl, htook⟩
      · exact absurd hold (Nat.lt_irrefl _)

theorem recorded_of_unrouted (hnext : h'.nextRes = h.nextRes)
    (hres : ∀ q, (h'.resources q).map Resource.unrouted = (h.resources q).map Resource.unrouted) :
    Recorded h h' := by
  refine ⟨Nat.le_of_eq hnext.symm, fun q x' _ hx' => ?_⟩
  obtain ⟨x, hx, hxx⟩ := exists_of_map_unrouted (hres q) hx'
  have hval : x'.unrouted.pushedValue = x.unrouted.pushedValue := by rw [hxx]
  exact ⟨x, hx, fun hsome => hval ▸ hsome⟩

theorem recorded_setResource {q : ResRef} (hx : h.resources q = some x)
    (hkeep : x.pushedValue ≠ none → y.pushedValue ≠ none)
    (hres : h'.resources = (h.setResource q y).resources) (hnext : h'.nextRes = h.nextRes) :
    Recorded h h' := by
  refine ⟨Nat.le_of_eq hnext.symm, fun r x' _ hx' => ?_⟩
  rw [hres] at hx'
  by_cases hq : r = q
  · subst hq
    simp only [Hub.setResource, Function.update_self, Option.some.injEq] at hx'
    exact ⟨x, hx, hx' ▸ hkeep⟩
  · simp only [Hub.setResource, Function.update_of_ne hq] at hx'
    exact ⟨x', hx', id⟩

theorem Traced.pushed {ctx : ObsContext} {u : CString} {p : Pushed} (htraced : Traced P h)
    (hwf : WellFormed h) (hx : h.resources r = some x) (he : h.entries x.entryRef = some entry)
    (hp : PushOutcome P entry.type x u p) (hlocal : resPushLocal P ctx entry.type x t u s = .ok p)
    (hlog : h'.log = h.log ++
      .receiving r entry.type s :: .pushing r ctx x t u s :: p.events.map (.obs r))
    (hrec : Recorded h h') (hres : h'.resources = (h.setResource r p.accepted).resources) :
    Traced P h' := by
  constructor
  · intro old new x' et' y' hmem
    rw [hlog] at hmem
    rcases List.mem_append.mp hmem with hmem | hmem
    · obtain ⟨hold, hnew, hgone⟩ := htraced.replaced _ _ _ _ _ hmem
      exact ⟨Nat.lt_of_lt_of_le hold hrec.1, Nat.lt_of_lt_of_le hnew hrec.1, hrec.gone hold hgone⟩
    · simp at hmem
  · intro q t' s' htook
    rw [hlog] at htook
    rcases htook.of_push htraced hx (hwf.cls r x entry hx he) hlocal with htook | ⟨rfl, hsample⟩
    · obtain ⟨hlt, hrecorded⟩ := htraced.recorded q t' s' htook
      refine ⟨Nat.lt_of_lt_of_le hlt hrec.1, fun z hz => ?_⟩
      obtain ⟨w, hw, hkeep⟩ := hrec.2 q z hlt hz
      exact hkeep (hrecorded w hw)
    · refine ⟨Nat.lt_of_lt_of_le (hwf.res_lt q x hx) hrec.1, fun z hz => ?_⟩
      rw [hres] at hz
      simp only [Hub.setResource, Function.update_self, Option.some.injEq] at hz
      subst hz
      exact hp.recorded (.inr hsample)

theorem traced_replaced {e : EntryRef} (hwf : WellFormed h) (htraced : Traced P h)
    (he : h.entries e = some entry) (hre : Replaceable entry.type et) (hy : Created P e et y)
    (hrep : Replaced P h e y et entry h') : Traced P h' := by
  have hrec : Recorded h h' := by
    refine ⟨hrep.nextRes ▸ Nat.le_succ _, fun q z hlt hz => ?_⟩
    rcases replaced_cases hwf he hy.entryRef hrep hz with ⟨x, hx, -, hzx⟩ | ⟨rfl, -⟩ | ⟨rfl, -⟩
    · have hval : z.unrouted.pushedValue = x.unrouted.pushedValue := by rw [hzx]
      exact ⟨x, hx, fun hsome => hval ▸ hsome⟩
    · exact absurd hlt (Nat.lt_irrefl _)
    · exact absurd hlt (Nat.lt_irrefl _)
  cases hold : entry.resourcePtr with
  | none => exact htraced.quiet (hrep.attach hold).2.1 (by simp [Event.traced]) hrec
  | some old =>
    obtain ⟨x, evs, hx, hres, hlog, hevs⟩ := hrep.move old hold
    obtain ⟨x', hx', rfl⟩ := hwf.resourceOf e entry old he hold
    have hlt := hwf.res_lt old x' hx'
    rw [Function.update_of_ne (Nat.ne_of_lt hlt)] at hx
    cases hx.symm.trans hx'
    rw [(hevs (hre.notObservation (hwf.cls old x entry hx he))).1] at hlog
    have hgone : h'.resources old = none := by
      have hmap := hres old
      rw [Function.update_self] at hmap
      exact Option.map_eq_none_iff.mp hmap
    have hnew : ∀ z, h'.resources h.nextRes = some z → z.pushedValue = x.pushedValue := by
      intro z hz
      have hmap := hres h.nextRes
      rw [Function.update_of_ne (Nat.ne_of_gt hlt), Function.update_self, hz] at hmap
      have hval := congrArg Resource.pushedValue (Option.some.inj hmap)
      exact hval.trans (moveValues_moved (P := P) x y et).1
    constructor
    · intro old' new x' et' y' hmem
      rw [hlog] at hmem
      rcases List.mem_append.mp hmem with hmem | hmem
      · obtain ⟨hold', hnew', hgone'⟩ := htraced.replaced _ _ _ _ _ hmem
        exact ⟨Nat.lt_of_lt_of_le hold' hrec.1, Nat.lt_of_lt_of_le hnew' hrec.1,
          hrec.gone hold' hgone'⟩
      · cases List.mem_singleton.mp hmem
        rw [hrep.nextRes]
        exact ⟨Nat.lt_succ_of_lt hlt, Nat.lt_succ_self _, hgone⟩
    · intro q t s htook
      rw [hlog] at htook
      rcases htook.of_replacing htraced hlt with htook | ⟨rfl, hmoved⟩
      · obtain ⟨hltq, hrecorded⟩ := htraced.recorded q t s htook
        refine ⟨Nat.lt_of_lt_of_le hltq hrec.1, fun z hz => ?_⟩
        obtain ⟨w, hw, hkeep⟩ := hrec.2 q z hltq hz
        exact hkeep (hrecorded w hw)
      · rw [hrep.nextRes]
        refine ⟨Nat.lt_succ_self _, fun z hz => ?_⟩
        rw [hnew z hz]
        exact (htraced.recorded old t s hmoved).2 x hx

theorem traced_micro (hwf : WellFormed h) (hm : Micro P h h') (hok : ∀ e ∈ h'.log, recordsWell e)
    (htraced : Traced P h) : Traced P h' := by
  have hsame : SameCore h h' → Recorded h h' := fun hs =>
    recorded_of_unrouted hs.nextRes fun q => by rw [hs.resources]
  cases hm with
  | ambient hs evs hnote hlog =>
    refine htraced.quiet hlog (fun e he => ?_) (hsame hs)
    cases hnote.note e he <;> rfl
  | startUpdate =>
    exact htraced.quiet (List.append_nil _).symm (by simp)
      (recorded_of_unrouted rfl fun _ => rfl)
  | endUpdate =>
    exact htraced.quiet (l := [.endingUpdate]) rfl (by simp [Event.traced])
      (recorded_of_unrouted rfl fun _ => rfl)
  | @edit _ r x x' entry evs hx he hedit hreads hs hlog =>
    rcases hedit.quiet (fun e hmem => hok e (by simp [hlog, hmem])) with
      ⟨hquiet, hkeep⟩ | ⟨ctx, t, u, s, p, hp, hlocal, rfl, rfl⟩
    · exact htraced.quiet hlog hquiet (recorded_setResource hx hkeep hs.resources hs.nextRes)
    · have hrec : Recorded h h' :=
        recorded_setResource hx (fun hsome => hp.recorded (.inl hsome)) hs.resources hs.nextRes
      exact htraced.pushed hwf hx he hp hlocal hlog hrec hs.resources
  | @addHandler r x hx t =>
    refine htraced.quiet (List.append_nil _).symm (by simp) ?_
    exact recorded_setResource
      (y := { x with pushHandlerList := x.pushHandlerList ++ [h.nextHandler] }) hx id rfl rfl
  | @removeHandler p handler x hp hx =>
    refine htraced.quiet (List.append_nil _).symm (by simp) ?_
    exact recorded_setResource
      (y := { x with pushHandlerList := x.pushHandlerList.erase p }) hx id rfl rfl
  | unlink dest hu =>
    have hs := (routesOnly_unlinkSource h dest).result hu
    exact htraced.quiet (by rw [hs.log, List.append_nil]) (by simp)
      (recorded_of_unrouted hs.nextRes hs.resources)
  | link dest src fuel hd hnone hloop hl =>
    have hs := (routesOnly_linkSource _ dest src).result hl
    exact htraced.quiet (l := [.routing dest src]) hs.log (by simp [Event.traced])
      (recorded_of_unrouted hs.nextRes hs.resources)
  | addChild parent name ha =>
    obtain ⟨_, _, _, hh⟩ := (addChild_frame h parent name).result ha
    dsimp only at hh
    subst hh
    exact htraced.quiet (List.append_nil _).symm (by simp)
      (recorded_of_unrouted rfl fun _ => rfl)
  | replace he hre hy hr =>
    exact traced_replaced hwf htraced he hre hy (replaceResource_replaced hwf he hr).2
  | @remove _ _ q x entry evs hx he hsrc hdest hs hlog hfreed hrel =>
    have hrel' := (releaseEntry_frame _ _ _).result hrel
    refine htraced.quiet (hrel'.log.trans hlog) (fun e he => ?_)
      ⟨Nat.le_of_eq (hrel'.nextRes.trans hs.nextRes).symm, fun r x' _ hx' => ?_⟩
    · obtain ⟨ev, -, rfl⟩ := List.mem_map.mp he
      rfl
    · rw [hrel'.resources, hs.resources] at hx'
      have hr : r ≠ q := by
        rintro rfl
        simp [removed, freed] at hx'
      simp only [removed, freed, Function.update_of_ne hr] at hx'
      exact ⟨x', hx', id⟩

theorem reachable_traced (hr : Reachable P h) (hok : ∀ e ∈ h.log, recordsWell e) :
    Traced P h := by
  refine reachable_induction recordsWell (fun env files => ⟨?_, ?_⟩)
    (fun _ _ hwf hm hok htraced => traced_micro hwf hm hok htraced) hr hok
  · intro old new x et y hmem
    cases hmem
  · intro r t s htook
    exfalso
    induction htook with
    | pushed hmem => cases hmem
    | moved hmem => cases hmem

end MangOH.DataHub
