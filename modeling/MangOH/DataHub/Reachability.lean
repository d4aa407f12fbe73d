import MangOH.DataHub.ServiceTrace

/-! The induction over the runs of the hub: what holds at first, and what every atomic change keeps
whose events are all right, holds in every state reached. -/
namespace MangOH.DataHub

open Outcome

variable {P : Platform} {b h h' : Hub} {Ok : Event → Prop} {Q : Hub → Prop} {r : ResRef}
  {x x' : Resource} {o o' : Observation}

/-! ### What is logged -/

/-- What an edit does to the class of a resource, with the events of its Observation. -/
inductive ClassEdit (P : Platform) : ResourceClass → List ObsEvent → ResourceClass → Prop
  | same (cls : ResourceClass) : ClassEdit P cls [] cls
  | optional (t : DataType) (mandatory : Bool) :
      ClassEdit P (.ioPoint t mandatory) [] (.ioPoint t false)
  | run {o o' : Observation} {evs : List ObsEvent} (h : ObsRun P o evs o') :
      ClassEdit P (.observation o) evs (.observation o')
  | restore {env : Environment} {content : Bytes} {o : Observation} {evs : List ObsEvent}
      {newest : Option DataSample}
      (h : obsRestoreContent env obsCreate content = .ok (o, evs, newest)) :
      ClassEdit P (.observation obsCreate) evs (.observation o)

theorem ClassRun.classEdit {cls cls' : ResourceClass} {evs : List ObsEvent}
    (h : ClassRun P cls evs cls') : ClassEdit P cls evs cls' := by
  cases h with
  | refl => exact .same _
  | run hrun => exact .run hrun

theorem ObsStep.classEdit {evs : List ObsEvent} (hs : ObsStep P o evs o') :
    ClassEdit P (.observation o) evs (.observation o') := by
  have hrun := ObsRun.step (.refl o) hs
  rw [List.nil_append] at hrun
  exact .run hrun

/-- The events that an edit logs for an Observation are those of its resource. -/
theorem Edit.classEdit {updating : Bool} {et : EntryType} {evs : List Event}
    (hedit : Edit P r updating et x evs x') :
    ∃ obsEvs : List ObsEvent, (∀ q ev, .obs q ev ∈ evs → q = r ∧ ev ∈ obsEvs) ∧
      (∀ ev ∈ obsEvs, .obs r ev ∈ evs) ∧ ClassEdit P x.cls obsEvs x'.cls := by
  have hnone : ∀ obsEvs : List ObsEvent, ∀ q ev, Event.obs q ev ∈ obsEvs.map (.obs r) →
      q = r ∧ ev ∈ obsEvs := by
    intro obsEvs q ev hmem
    obtain ⟨ev', hev', heq⟩ := List.mem_map.mp hmem
    cases heq
    exact ⟨rfl, hev'⟩
  cases hedit with
  | push ctx t u s hs p hctx hp =>
    refine ⟨p.events, ?_, ?_, ?_⟩
    · intro q ev hmem
      rcases List.mem_cons.mp hmem with heq | hmem
      · cases heq
      rcases List.mem_cons.mp hmem with heq | hmem
      · cases heq
      · exact hnone _ q ev hmem
    · exact fun ev hev =>
        List.mem_cons_of_mem _ (List.mem_cons_of_mem _ (List.mem_map_of_mem hev))
    · rw [cls_accepted]
      exact hp.run.classEdit
  | override t s =>
    refine ⟨[], by simp, by simp, ?_⟩
    rw [Resource.withOverride, cls_accept]
    exact .same _
  | unoverride =>
    refine ⟨[], by simp, by simp, ?_⟩
    rw [cls_unoverride]
    exact .same _
  | default t s =>
    refine ⟨[], by simp, by simp, ?_⟩
    rw [cls_withDefault]
    exact .same _
  | optional t mandatory hx =>
    refine ⟨[], by simp, by simp, ?_⟩
    rw [hx]
    exact .optional t mandatory
  | observe hx hs =>
    rw [hx]
    exact ⟨_, hnone _, fun ev hev => List.mem_map_of_mem hev, hs.classEdit⟩
  | configure hx hs =>
    rw [hx]
    refine ⟨_, ?_, fun ev hev => List.mem_append_left _ (List.mem_map_of_mem hev), hs.classEdit⟩
    intro q ev hmem
    rcases List.mem_append.mp hmem with hmem | hmem
    · exact hnone _ q ev hmem
    · cases List.mem_singleton.mp hmem
  | extraction hx hs =>
    rw [hx]
    refine ⟨_, ?_, fun ev hev => List.mem_append_left _ (List.mem_map_of_mem hev), hs.classEdit⟩
    intro q ev hmem
    rcases List.mem_append.mp hmem with hmem | hmem
    · exact hnone _ q ev hmem
    · cases List.mem_singleton.mp hmem
  | restore env content hx h =>
    rw [hx]
    refine ⟨_, ?_, fun ev hev => List.mem_cons_of_mem _ (List.mem_map_of_mem hev), .restore h⟩
    intro q ev hmem
    rcases List.mem_cons.mp hmem with heq | hmem
    · cases heq
    · exact hnone _ q ev hmem
  | _ => exact ⟨[], by simp, by simp, .same _⟩

/-- Only Inputs, Outputs and Placeholders are ever replaced. -/
theorem Replaceable.notObservation {et et' : EntryType} {cls : ResourceClass}
    (hre : Replaceable et et') (hcls : ClassOk et cls) : ∀ o, cls ≠ .observation o := by
  rintro o rfl
  cases hre with
  | nameSpace => exact hcls
  | placeholder => exact hcls
  | io hio => cases et <;> simp_all [ClassOk, EntryType.isIo]

/-- What an atomic change logs. -/
inductive Logs (P : Platform) (h h' : Hub) : List Event → Prop
  | notes {evs : List Event} (hn : Notes P h evs) : Logs P h h' evs
  | endUpdate : Logs P h h' [.endingUpdate]
  | edit {r : ResRef} {x x' : Resource} {entry : Entry} {evs : List Event}
      (hx : h.resources r = some x) (he : h.entries x.entryRef = some entry)
      (hedit : Edit P r h.isUpdateInProgress entry.type x evs x')
      (hsame : SameCore (h.setResource r x') h') : Logs P h h' evs
  | attach {e : EntryRef} {entry : Entry} {et : EntryType} {y : Resource}
      (he : h.entries e = some entry) (hnone : entry.resourcePtr = none) (hy : Created P e et y)
      (hnext : h'.nextRes = h.nextRes + 1) : Logs P h h' [.attaching e entry h.nextRes et y]
  | replace {old : ResRef} {x : Resource} {entry : Entry} {et : EntryType} {y : Resource}
      (hx : h.resources old = some x) (he : h.entries x.entryRef = some entry)
      (hre : Replaceable entry.type et) (hy : Created P x.entryRef et y)
      (hnext : h'.nextRes = h.nextRes + 1) : Logs P h h' [.replacing old h.nextRes x et y]
  | free (r : ResRef) {evs : List ObsEvent} (hfreed : Freed evs) : Logs P h h' (evs.map (.obs r))

theorem logs_micro (hwf : WellFormed h) (hm : Micro P h h') :
    ∃ evs, h'.log = h.log ++ evs ∧ Logs P h h' evs := by
  cases hm with
  | ambient hsame evs hnote hlog => exact ⟨evs, hlog, .notes hnote⟩
  | startUpdate => exact ⟨[], (List.append_nil _).symm, .notes .nil⟩
  | endUpdate => exact ⟨[.endingUpdate], rfl, .endUpdate⟩
  | @edit _ r x x' entry evs hx he hedit hreads hsame hlog =>
    exact ⟨evs, hlog, .edit hx he hedit hsame⟩
  | addHandler => exact ⟨[], (List.append_nil _).symm, .notes .nil⟩
  | removeHandler => exact ⟨[], (List.append_nil _).symm, .notes .nil⟩
  | unlink dest hu =>
    have hlog := ((routesOnly_unlinkSource h dest).result hu).log
    exact ⟨[], by simp [hlog], .notes .nil⟩
  | link dest src fuel hd hnone hloop hl =>
    exact ⟨_, ((routesOnly_linkSource _ dest src).result hl).log, .notes (.routing dest src)⟩
  | addChild parent name ha =>
    obtain ⟨p, _, _, hh⟩ := (addChild_frame h parent name).result ha
    dsimp only at hh
    exact ⟨[], by simp [hh], .notes .nil⟩
  | @replace _ e r entry et y he hre hy hr =>
    obtain ⟨_, hrep⟩ := replaceResource_replaced hwf he hr
    cases hold : entry.resourcePtr with
    | none => exact ⟨_, (hrep.attach hold).2.1, .attach he hold hy hrep.nextRes⟩
    | some old =>
      obtain ⟨x, evs, hx, _, hlog, hevs⟩ := hrep.move old hold
      obtain ⟨x', hx', rfl⟩ := hwf.resourceOf e entry old he hold
      rw [Function.update_of_ne (hwf.ne_nextRes hx')] at hx
      cases hx.symm.trans hx'
      rw [(hevs (hre.notObservation (hwf.cls old x entry hx he))).1] at hlog
      exact ⟨_, hlog, .replace hx he hre hy hrep.nextRes⟩
  | @remove _ _ r x entry evs hx he hsrc hdest hsame hlog hfreed hrel =>
    exact ⟨evs.map (.obs r), ((releaseEntry_frame _ _ _).result hrel).log.trans hlog,
      .free r hfreed⟩

/-- The events of Observations that an atomic change logs: an edit's, or those of a resource that is
freed. -/
theorem obsEvents_micro (hwf : WellFormed h) (hm : Micro P h h') :
    ∃ evs, h'.log = h.log ++ evs ∧ ∀ q ev, .obs q ev ∈ evs → Freed [ev] ∨
      ∃ x obsEvs cls, h.resources q = some x ∧ ClassEdit P x.cls obsEvs cls ∧ ev ∈ obsEvs ∧
        ∀ ev' ∈ obsEvs, .obs q ev' ∈ evs := by
  obtain ⟨evs, hlog, hlogs⟩ := logs_micro hwf hm
  refine ⟨evs, hlog, fun q ev hmem => ?_⟩
  cases hlogs with
  | notes hn => cases hn.note _ hmem
  | endUpdate => cases List.mem_singleton.mp hmem
  | edit hx he hedit =>
    obtain ⟨obsEvs, hall, hback, hcls⟩ := hedit.classEdit
    obtain ⟨rfl, hev⟩ := hall q ev hmem
    exact .inr ⟨_, obsEvs, _, hx, hcls, hev, hback⟩
  | attach => cases List.mem_singleton.mp hmem
  | replace => cases List.mem_singleton.mp hmem
  | free r hfreed =>
    obtain ⟨ev', hev', heq⟩ := List.mem_map.mp hmem
    cases heq
    refine .inl fun ev'' hev'' => ?_
    rw [List.mem_singleton.mp hev'']
    exact hfreed ev hev'

theorem log_micro (hwf : WellFormed h) (hm : Micro P h h') : ∃ evs, h'.log = h.log ++ evs := by
  obtain ⟨evs, hlog, _⟩ := logs_micro hwf hm
  exact ⟨evs, hlog⟩

/-- What an atomic change logs about handlers. -/
inductive Logged (h : Hub) : Event → Prop
  | accepting {r : ResRef} {x : Resource} {entry : Entry} {s : DataSample}
      (hx : h.resources r = some x) (he : h.entries x.entryRef = some entry)
      (hs : x.currentValue = some s) : Logged h (.accepting r entry.type x.pushHandlerList s)
  | notifying (r : ResRef) (list : List HandlerRef) (s : DataSample) :
      Logged h (.notifying r (h.registered list) s)
  | registering {p : HandlerRef} {handler : Handler} (hp : h.handlers p = some handler) :
      Logged h (.registering handler.listPtr p)
  | called {p : HandlerRef} {handler : Handler} (hp : h.handlers p = some handler)
      (timestamp : Double) (value : Argument) : Logged h (.called p timestamp value)
  | plain {e : Event} (he : e.isPlain = true) : Logged h e

theorem logged_call {p : HandlerRef} {handler : Handler} {t : DataType} {s : DataSample}
    {e : Event} (hp : h.handlers p = some handler) (hc : handlerCallOf P s (p, t) = some e) :
    Logged h e := by
  obtain ⟨value, _, rfl⟩ := Option.map_eq_some_iff.mp hc
  exact .called hp _ _

theorem Notes.logged {evs : List Event} (hn : Notes P h evs) : ∀ e ∈ evs, Logged h e := by
  intro e he
  cases hn with
  | nil => cases he
  | accept hx hentry s hs => exact List.mem_singleton.mp he ▸ .accepting hx hentry hs
  | update r list s =>
    rcases List.mem_cons.mp he with rfl | he
    · exact .notifying r list s
    · obtain ⟨⟨p, t⟩, hmem, hc⟩ := List.mem_filterMap.mp he
      obtain ⟨q, _, hq⟩ := List.mem_filterMap.mp hmem
      obtain ⟨handler, hp, heq⟩ := Option.map_eq_some_iff.mp hq
      cases heq
      exact logged_call hp hc
  | register p handler hp value =>
    rcases List.mem_cons.mp he with rfl | he
    · exact .registering hp
    · obtain ⟨s, _, hc⟩ := Option.bind_eq_some_iff.mp (Option.mem_toList.mp he)
      exact logged_call hp hc
  | routing => exact List.mem_singleton.mp he ▸ .plain rfl
  | noSource => exact List.mem_singleton.mp he ▸ .plain rfl
  | treeChange => exact List.mem_singleton.mp he ▸ .plain rfl
  | readRefused => exact List.mem_singleton.mp he ▸ .plain rfl

theorem logged_micro (hwf : WellFormed h) (hm : Micro P h h') :
    ∃ evs, h'.log = h.log ++ evs ∧ ∀ e ∈ evs, Logged h e := by
  obtain ⟨evs, hlog, hlogs⟩ := logs_micro hwf hm
  refine ⟨evs, hlog, fun e he => ?_⟩
  cases hlogs with
  | notes hn => exact hn.logged e he
  | endUpdate => exact List.mem_singleton.mp he ▸ .plain rfl
  | edit hx hentry hedit => exact .plain (hedit.plain e he)
  | attach => exact List.mem_singleton.mp he ▸ .plain rfl
  | replace => exact List.mem_singleton.mp he ▸ .plain rfl
  | free r hfreed =>
    obtain ⟨ev, _, rfl⟩ := List.mem_map.mp he
    exact .plain rfl

/-- Where the class of a resource comes from in an atomic change. -/
inductive ClassFrom (P : Platform) (h h' : Hub) (r : ResRef) (cls : ResourceClass) : Prop
  | same {x : Resource} (hx : h.resources r = some x) (hc : x.cls = cls)
  | edit {x x' : Resource} {entry : Entry} {evs : List Event} (hx : h.resources r = some x)
      (he : h.entries x.entryRef = some entry)
      (hedit : Edit P r h.isUpdateInProgress entry.type x evs x')
      (hlog : h'.log = h.log ++ evs) (hc : x'.cls = cls)
  | created {e : EntryRef} {et : EntryType} {y : Resource} (hy : Created P e et y)
      (hc : y.cls = cls) (hr : r = h.nextRes)

theorem ClassFrom.of_unrouted {h₁ : Hub}
    (hres : (h'.resources r).map Resource.unrouted = (h₁.resources r).map Resource.unrouted)
    (hx' : h'.resources r = some x') (hfrom : ∀ y, h₁.resources r = some y →
      ClassFrom P h h' r y.cls) : ClassFrom P h h' r x'.cls := by
  obtain ⟨y, hy, hxy⟩ := exists_of_map_unrouted hres hx'
  have hc : x'.unrouted.cls = y.unrouted.cls := congrArg Resource.cls hxy
  exact hc ▸ hfrom y hy

/-- An atomic change edits the class of at most one resource; new ones are as created. -/
theorem class_micro (hwf : WellFormed h) (hm : Micro P h h') (hx' : h'.resources r = some x') :
    ClassFrom P h h' r x'.cls := by
  have hset : ∀ {q : ResRef} {z : Resource}, (q = r → ClassFrom P h h' r z.cls) →
      (h.setResource q z).resources r = some x' → ClassFrom P h h' r x'.cls := by
    intro q z hz hx'
    by_cases hq : r = q
    · subst hq
      simp only [Hub.setResource, Function.update_self, Option.some.injEq] at hx'
      exact hx' ▸ hz rfl
    · simp only [Hub.setResource, Function.update_of_ne hq] at hx'
      exact .same hx' rfl
  cases hm with
  | ambient hsame => exact .same (hsame.resources ▸ hx') rfl
  | startUpdate => exact .same hx' rfl
  | endUpdate => exact .same hx' rfl
  | edit hx he hedit hreads hsame hlog =>
    rw [hsame.resources] at hx'
    refine hset ?_ hx'
    rintro rfl
    exact .edit hx he hedit hlog rfl
  | addHandler hx t =>
    refine hset ?_ hx'
    rintro rfl
    exact .same hx rfl
  | removeHandler hp hx =>
    refine hset ?_ hx'
    rintro rfl
    exact .same hx rfl
  | unlink dest hu =>
    exact .of_unrouted (((routesOnly_unlinkSource h dest).result hu).resources r) hx'
      fun y hy => .same hy rfl
  | link dest src fuel hd hnone hloop hl =>
    exact .of_unrouted (((routesOnly_linkSource _ dest src).result hl).resources r) hx'
      fun y hy => .same hy rfl
  | addChild parent name ha =>
    obtain ⟨p, _, _, hh⟩ := (addChild_frame h parent name).result ha
    dsimp only at hh
    subst hh
    exact .same hx' rfl
  | replace he hre hy hr =>
    rcases replaced_cases hwf he hy.entryRef (replaceResource_replaced hwf he hr).2 hx' with
      ⟨x, hx, _, hzx⟩ | ⟨hnew, _, rfl, _⟩ | ⟨hnew, old, x, _, _, _, hzx, _⟩
    · exact .same hx (congrArg Resource.cls hzx).symm
    · exact .created hy rfl hnew
    · have hc := congrArg Resource.cls hzx
      exact .created hy ((cls_moveValues x _ _).symm.trans hc.symm) hnew
  | @remove _ _ q x entry evs hx he hsrc hdest hsame hlog hfreed hrel =>
    rw [((releaseEntry_frame _ _ _).result hrel).resources, hsame.resources] at hx'
    by_cases hq : r = q
    · subst hq
      simp [removed, freed] at hx'
    · simp only [removed, freed, Function.update_of_ne hq] at hx'
      exact .same hx' rfl

/-! ### Induction -/

variable (Ok) in
/-- Induction over a sequence of atomic changes. -/
theorem ext_induction (hQ : Q b)
    (hmicro : ∀ h h', WellFormed h → Micro P h h' → (∀ e ∈ h'.log, Ok e) → Q h → Q h')
    (hwf : WellFormed b) (he : Ext P b h) (hok : ∀ e ∈ h.log, Ok e) : Q h := by
  have hall : WellFormed h ∧ ((∀ e ∈ h.log, Ok e) → Q h) := by
    have hmicros := he.micros
    clear he hok
    induction hmicros with
    | refl => exact ⟨hwf, fun _ => hQ⟩
    | tail _ hm ih =>
      refine ⟨wellFormed_micro ih.1 hm, fun hok => ?_⟩
      obtain ⟨evs, hlog⟩ := log_micro ih.1 hm
      refine hmicro _ _ ih.1 hm hok (ih.2 fun e he => hok e ?_)
      rw [hlog]
      exact List.mem_append_left _ he
  exact hall.2 hok

variable (Ok) in
/-- Induction over the states that the hub can get into. -/
theorem reachable_induction (hboot : ∀ env files, Q (boot env files))
    (hmicro : ∀ h h', WellFormed h → Micro P h h' → (∀ e ∈ h'.log, Ok e) → Q h → Q h')
    (hr : Reachable P h) (hok : ∀ e ∈ h.log, Ok e) : Q h := by
  obtain ⟨env, files, he⟩ := reachable_ext hr
  exact ext_induction Ok (hboot env files) hmicro (wellFormed_boot env files) he hok

/-- An invariant of resources holds of every resource in every state reached. -/
theorem reachable_each {I : EntryType → Resource → Prop} (hinv : ResourceInvariant P Ok I)
    (hr : Reachable P h) (hok : ∀ e ∈ h.log, Ok e) : Each I h := by
  refine reachable_induction Ok ?_ (fun h h' hwf hm hok hI => each_micro hinv hwf hI hm hok) hr hok
  intro env files r x entry hx
  cases hx

/-- A later state of the same run. -/
def Later (P : Platform) : Hub → Hub → Prop :=
  Relation.ReflTransGen fun h h' => ∃ fuel op, step P fuel h op = .ok h'

theorem Later.reachable (hr : Reachable P h) (hl : Later P h h') : Reachable P h' := by
  induction hl with
  | refl => exact hr
  | tail _ hs ih =>
    obtain ⟨fuel, op, hs⟩ := hs
    exact .step fuel op ih hs

theorem Later.ext (hwf : WellFormed h) (hl : Later P h h') : Ext P h h' := by
  induction hl with
  | refl => exact .refl hwf
  | tail _ hs ih =>
    obtain ⟨fuel, op, hs⟩ := hs
    exact (ext_step fuel ih op).result hs

theorem ext_log (hwf : WellFormed b) (he : Ext P b h) : ∃ evs, h.log = b.log ++ evs :=
  ext_induction (fun _ => True) (Q := fun h => ∃ evs, h.log = b.log ++ evs)
    ⟨[], (List.append_nil _).symm⟩
    (fun h h' hwf hm _ hlog => by
      obtain ⟨evs, heq⟩ := hlog
      obtain ⟨evs', heq'⟩ := log_micro hwf hm
      exact ⟨evs ++ evs', by rw [heq', heq, List.append_assoc]⟩) hwf he fun _ _ => trivial

/-! ### Observations -/

theorem ObsReachable.run {log evs : List ObsEvent} (hr : ObsReachable P log o)
    (hrun : ObsRun P o evs o') : ObsReachable P (log ++ evs) o' := by
  induction hrun with
  | refl =>
    rw [List.append_nil]
    exact hr
  | step hrun hs ih =>
    rw [← List.append_assoc]
    exact ih.step hs

/-- What holds of a new Observation, and is kept by all that can happen to it as long as its events
are all right, holds of every Observation. -/
theorem observation_invariant (OkObs : ObsEvent → Prop) {J : Observation → Prop}
    (hcreate : J obsCreate)
    (hrestore : ∀ env content o evs newest,
      obsRestoreContent env obsCreate content = .ok (o, evs, newest) → (∀ ev ∈ evs, OkObs ev) → J o)
    (hrun : ∀ o evs o', ObsRun P o evs o' → (∀ ev ∈ evs, OkObs ev) → J o → J o') :
    ResourceInvariant P (fun e => ∀ q ev, e = .obs q ev → OkObs ev) fun _ x =>
      ∀ o, x.cls = .observation o → J o := by
  have hcreated : ∀ e et y, Created P e et y → ∀ o, y.cls = .observation o → J o := by
    intro e et y hy o ho
    rw [hy.observation_eq ho]
    exact hcreate
  refine ⟨fun _ _ => Iff.rfl, ?_, hcreated, fun _ _ _ hx => hx, ?_⟩
  · intro q updating et x evs x' _ _ hedit hevs hx o' ho'
    obtain ⟨obsEvs, _, hmem, hcls⟩ := hedit.classEdit
    have hok : ∀ ev ∈ obsEvs, OkObs ev := fun ev hev => hevs _ (hmem ev hev) q ev rfl
    rw [ho'] at hcls
    generalize hc : x.cls = cls at hcls
    cases hcls with
    | same => exact hx o' hc
    | run h => exact hrun _ _ _ h hok (hx _ hc)
    | restore h => exact hrestore _ _ _ _ _ h hok
  · intro old new e et et' x y _ _ _ hy _ _ o ho
    rw [cls_moveValues] at ho
    exact hcreated e et' y hy o ho

/-- Every Observation of the hub has got into its state by itself, and the hub has logged all that
happened to it. -/
theorem observation_reachable (OkObs : ObsEvent → Prop) (hr : Reachable P h)
    (hok : ∀ q ev, .obs q ev ∈ h.log → OkObs ev) (hx : h.resources r = some x)
    (ho : x.cls = .observation o) :
    ∃ log, ObsReachable P log o ∧ ∀ ev ∈ log, OkObs ev := by
  have hinv : ResourceInvariant P (fun e => ∀ q ev, e = .obs q ev → OkObs ev) fun _ x =>
      ∀ o, x.cls = .observation o → ∃ log, ObsReachable P log o ∧ ∀ ev ∈ log, OkObs ev := by
    refine observation_invariant OkObs ⟨[], .create, by simp⟩ ?_ ?_
    · exact fun env content o evs newest h hevs => ⟨evs, .restore env content h, hevs⟩
    · rintro o evs o' hrun hevs ⟨log, hlog, hall⟩
      refine ⟨log ++ evs, hlog.run hrun, fun ev hev => ?_⟩
      rcases List.mem_append.mp hev with hev | hev
      · exact hall ev hev
      · exact hevs ev hev
  obtain ⟨entry, hentry, _⟩ := (reachable_wellFormed hr).entryOf r x hx
  exact reachable_each hinv hr (fun e he q ev heq => hok q ev (heq ▸ he)) r x entry hx hentry o ho

end MangOH.DataHub
