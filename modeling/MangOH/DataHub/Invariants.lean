import MangOH.DataHub.Frames

/-! Invariants of the resources, and why they hold in every state: each atomic change has to keep
them. -/
namespace MangOH.DataHub

open Outcome

variable {P : Platform} {h h' : Hub} {r : ResRef} {e : EntryRef} {x y : Resource}
  {I : EntryType → Resource → Prop} {et : EntryType} {entry : Entry} {Ok : Event → Prop}

/-! ### Properties of each resource under each kind of change -/

theorem each_sameCore (hI : Each I h) (hs : SameCore h h') : Each I h' := by
  intro r x entry hx he
  rw [hs.resources] at hx
  rw [hs.entries] at he
  exact hI r x entry hx he

theorem exists_of_map_unrouted {a b : Option Resource}
    (hab : a.map Resource.unrouted = b.map Resource.unrouted) (ha : a = some x) :
    ∃ y, b = some y ∧ x.unrouted = y.unrouted := by
  subst ha
  obtain ⟨y, hy, hxy⟩ := Option.map_eq_some_iff.mp hab.symm
  exact ⟨y, hy, hxy.symm⟩

theorem entryRef_of_unrouted (hxy : x.unrouted = y.unrouted) : x.entryRef = y.entryRef :=
  show x.unrouted.entryRef = y.unrouted.entryRef from congrArg Resource.entryRef hxy

theorem each_routesOnly (hun : ∀ et x, I et x.unrouted ↔ I et x) (hI : Each I h)
    (hs : RoutesOnly h h') : Each I h' := by
  intro r x entry hx he
  obtain ⟨y, hy, hxy⟩ := exists_of_map_unrouted (hs.resources r) hx
  rw [hs.entries, entryRef_of_unrouted hxy] at he
  rw [← hun, hxy, hun]
  exact hI r y entry hy he

theorem each_setResource (hI : Each I h) (hplace : x.entryRef = y.entryRef)
    (he : h.entries x.entryRef = some entry) (hy : I entry.type y) :
    Each I (h.setResource r y) := by
  intro q z entry' hz he'
  by_cases hq : q = r
  · subst hq
    simp only [Hub.setResource, Function.update_self, Option.some.injEq] at hz
    subst hz
    have : entry' = entry := by
      rw [hplace] at he
      exact Option.some.inj (he'.symm.trans he)
    rw [this]
    exact hy
  · simp only [Hub.setResource, Function.update_of_ne hq] at hz
    exact hI q z entry' hz he'

theorem each_released (hI : Each I h) (hs : EntriesReleased h h') : Each I h' := by
  intro r x entry' hx he'
  rw [hs.resources] at hx
  obtain ⟨entry, he, ht, _⟩ := hs.kept _ _ he'
  rw [ht]
  exact hI r x entry hx he

theorem each_removed (hwf : WellFormed h) (hI : Each I h) (hx : h.resources r = some x) :
    Each I (removed h r x entry) := by
  intro q z entry' hz he'
  by_cases hq : q = r
  · subst hq
    simp [removed, freed] at hz
  · simp only [removed, freed, Function.update_of_ne hq] at hz
    by_cases hqe : z.entryRef = x.entryRef
    · obtain ⟨entry₁, he₁, hr₁⟩ := hwf.entryOf q z hz
      obtain ⟨entry₂, he₂, hr₂⟩ := hwf.entryOf r x hx
      rw [hqe] at he₁
      cases he₁.symm.trans he₂
      exact absurd (Option.some.inj (hr₁.symm.trans hr₂)) hq
    · simp only [removed, freed, Function.update_of_ne hqe] at he'
      exact hI q z entry' hz he'

theorem each_addChild (hwf : WellFormed h) (hI : Each I h) {parent c : EntryRef} {name : CString}
    (ha : addChild P h parent name = .ok (h', c)) : Each I h' := by
  obtain ⟨p, hp, _, hh⟩ := (addChild_frame h parent name).result ha
  dsimp only at hh
  subst hh
  intro r x entry hx he
  obtain ⟨entry₀, he₀, hr₀⟩ := hwf.entryOf r x hx
  have hlt := hwf.entry_lt _ _ he₀
  dsimp only at he
  rw [Function.update_of_ne (Nat.ne_of_lt hlt)] at he
  by_cases hpe : x.entryRef = parent
  · rw [hpe, Function.update_self] at he
    cases he
    rw [hpe] at he₀
    cases hp.symm.trans he₀
    exact hI r x p hx (hpe ▸ hp)
  · rw [Function.update_of_ne hpe] at he
    exact hI r x entry hx he

theorem Created.entryRef (hy : Created P e et y) : y.entryRef = e := by
  cases hy <;> rfl

theorem entryRef_moveValues (x y : Resource) (et : EntryType) :
    (moveValues P x y et).entryRef = y.entryRef := by
  unfold moveValues
  dsimp only
  split
  · split <;> rfl
  · rfl

theorem cls_moveValues (x y : Resource) (et : EntryType) :
    (moveValues P x y et).cls = y.cls := by
  unfold moveValues
  dsimp only
  split
  · split <;> rfl
  · rfl

theorem WellFormed.fresh (hwf : WellFormed h) : h.resources h.nextRes = none := by
  cases hn : h.resources h.nextRes with
  | none => rfl
  | some x => exact absurd (hwf.res_lt _ _ hn) (Nat.lt_irrefl _)

theorem WellFormed.ne_nextRes (hwf : WellFormed h) (hx : h.resources r = some x) :
    r ≠ h.nextRes := Nat.ne_of_lt (hwf.res_lt r x hx)

theorem WellFormed.resourcePtr (hwf : WellFormed h) (hx : h.resources r = some x)
    (he : h.entries x.entryRef = some entry) : entry.resourcePtr = some r := by
  obtain ⟨entry', he', hr⟩ := hwf.entryOf r x hx
  cases he.symm.trans he'
  exact hr

/-- Where the resources of the new state come from: they are as before, or the new one, with or
without the settings of the one it replaces. -/
theorem replaced_cases (hwf : WellFormed h) (he : h.entries e = some entry)
    (hy : y.entryRef = e) (hr : Replaced P h e y et entry h') {q : ResRef} {z : Resource}
    (hz : h'.resources q = some z) :
    (∃ x, h.resources q = some x ∧ x.entryRef ≠ e ∧ z.unrouted = x.unrouted) ∨
    (q = h.nextRes ∧ entry.resourcePtr = none ∧ z = y ∧
      .attaching e entry h.nextRes et y ∈ h'.log) ∨
    (q = h.nextRes ∧ ∃ old x, entry.resourcePtr = some old ∧ h.resources old = some x ∧
      x.entryRef = e ∧ z.unrouted = (moveValues P x y et).unrouted ∧
      .replacing old h.nextRes x et y ∈ h'.log) := by
  cases hold : entry.resourcePtr with
  | none =>
    obtain ⟨hres, hlog⟩ := hr.attach hold
    rw [hres] at hz
    by_cases hq : q = h.nextRes
    · subst hq
      rw [Function.update_self] at hz
      exact .inr (.inl ⟨rfl, rfl, (Option.some.inj hz).symm, by simp [hlog]⟩)
    · rw [Function.update_of_ne hq] at hz
      refine .inl ⟨z, hz, ?_, rfl⟩
      rintro rfl
      have := hwf.resourcePtr hz he
      rw [hold] at this
      cases this
  | some old =>
    obtain ⟨x, evs, hx, hres, hlog, _⟩ := hr.move old hold
    obtain ⟨x', hx', hxe⟩ := hwf.resourceOf e entry old he hold
    have hne := hwf.ne_nextRes hx'
    rw [Function.update_of_ne hne] at hx
    cases hx.symm.trans hx'
    obtain ⟨w, hw, hzw⟩ := exists_of_map_unrouted (hres q) hz
    by_cases hqo : q = old
    · subst hqo
      simp at hw
    · rw [Function.update_of_ne hqo] at hw
      by_cases hq : q = h.nextRes
      · subst hq
        rw [Function.update_self] at hw
        cases hw
        exact .inr (.inr ⟨rfl, old, x, rfl, hx, hxe, hzw, by simp [hlog]⟩)
      · rw [Function.update_of_ne hq] at hw
        refine .inl ⟨w, hw, ?_, hzw⟩
        rintro rfl
        have := hwf.resourcePtr hw he
        rw [hold] at this
        exact hqo (Option.some.inj this).symm

/-- A property of a resource and the type of its entry that every change keeps, as long as what is
logged is all right. -/
structure ResourceInvariant (P : Platform) (Ok : Event → Prop) (I : EntryType → Resource → Prop) :
    Prop where
  unrouted : ∀ et x, I et x.unrouted ↔ I et x
  edit : ∀ r updating et x evs x', ClassOk et x.cls → Typed x → Edit P r updating et x evs x' →
    (∀ e ∈ evs, Ok e) → I et x → I et x'
  created : ∀ e et y, Created P e et y → I et y
  handlers : ∀ et x pushHandlerList, I et x → I et { x with pushHandlerList }
  moved : ∀ old new e et et' x y, Replaceable et et' → ClassOk et x.cls → Typed x →
    Created P e et' y → Ok (.replacing old new x et' y) → I et x → I et' (moveValues P x y et')

theorem each_replaced (hinv : ResourceInvariant P Ok I) (hwf : WellFormed h) (hI : Each I h)
    (he : h.entries e = some entry) (hre : Replaceable entry.type et) (hy : Created P e et y)
    (hr : Replaced P h e y et entry h') (hok : ∀ e ∈ h'.log, Ok e) : Each I h' := by
  intro q z entry' hz he'
  rw [hr.entries] at he'
  have hnew : z.entryRef = e → entry'.type = et := by
    intro hze
    rw [hze, Function.update_self] at he'
    cases he'
    rfl
  rcases replaced_cases hwf he hy.entryRef hr hz with
    ⟨x, hx, hxe, hzx⟩ | ⟨rfl, _, rfl, _⟩ | ⟨rfl, old, x, hold, hx, hxe, hzx, hlog⟩
  · rw [entryRef_of_unrouted hzx, Function.update_of_ne hxe] at he'
    rw [← hinv.unrouted, hzx, hinv.unrouted]
    exact hI q x entry' hx he'
  · rw [hnew hy.entryRef]
    exact hinv.created e et z hy
  · have hze : z.entryRef = e := by
      rw [entryRef_of_unrouted hzx, entryRef_moveValues]
      exact hy.entryRef
    rw [hnew hze, ← hinv.unrouted, hzx, hinv.unrouted]
    have hxe' : h.entries x.entryRef = some entry := by rwa [hxe]
    exact hinv.moved old _ e entry.type et x y hre (hwf.cls old x entry hx hxe')
      (hwf.typed old x entry hx hxe') hy (hok _ hlog) (hI old x entry hx hxe')

theorem replaceResource_replaced (hwf : WellFormed h) {new : ResRef}
    (he : h.entries e = some entry) (hr : replaceResource P h e y et = .ok (h', new)) :
    new = h.nextRes ∧ Replaced P h e y et entry h' := by
  obtain ⟨hnew, entry', he', hrep⟩ := (replaceResource_frame h e y et fun entry old he hold => by
    obtain ⟨x, hx, _⟩ := hwf.resourceOf e entry old he hold
    exact hwf.ne_nextRes hx).result hr
  cases he.symm.trans he'
  exact ⟨hnew, hrep⟩

theorem each_micro (hinv : ResourceInvariant P Ok I) (hwf : WellFormed h) (hI : Each I h)
    (hm : Micro P h h') (hok : ∀ e ∈ h'.log, Ok e) : Each I h' := by
  cases hm with
  | ambient hsame => exact each_sameCore hI hsame
  | startUpdate => exact hI
  | endUpdate => exact hI
  | @edit _ r x x' entry evs hx he hedit hreads hsame hlog =>
    have hok' : ∀ e ∈ evs, Ok e := fun e hmem => hok e (by simp [hlog, hmem])
    have hx' := hinv.edit _ _ _ _ _ _ (hwf.cls r x entry hx he) (hwf.typed r x entry hx he) hedit
      hok' (hI r x entry hx he)
    exact each_sameCore (each_setResource hI hedit.samePlace.entryRef.symm he hx') hsame
  | @addHandler r x hx t =>
    obtain ⟨entry, he, _⟩ := hwf.entryOf r x hx
    exact each_setResource (y := { x with pushHandlerList := _ }) hI rfl he
      (hinv.handlers _ _ _ (hI r x entry hx he))
  | @removeHandler p handler x hp hx =>
    obtain ⟨entry, he, _⟩ := hwf.entryOf _ x hx
    exact each_setResource (y := { x with pushHandlerList := _ }) hI rfl he
      (hinv.handlers _ _ _ (hI _ x entry hx he))
  | unlink dest hu =>
    exact each_routesOnly hinv.unrouted hI ((routesOnly_unlinkSource h dest).result hu)
  | link dest src fuel hd hnone hloop hl =>
    have hemit : Each I (h.emit (.routing dest src)) := hI
    exact each_routesOnly hinv.unrouted hemit ((routesOnly_linkSource _ dest src).result hl)
  | addChild parent name ha => exact each_addChild hwf hI ha
  | replace he hre hy hr =>
    exact each_replaced hinv hwf hI he hre hy (replaceResource_replaced hwf he hr).2 hok
  | remove hx he hsrc hdest hsame hlog hfreed hrel =>
    exact each_released (each_sameCore (each_removed hwf hI hx) hsame)
      ((releaseEntry_frame _ _ _).result hrel)

/-! ### New resources -/

/-- A resource without values, routes or suspension. -/
structure Blank (y : Resource) : Prop where
  currentValue : y.currentValue = none
  pushedValue : y.pushedValue = none
  overrideValue : y.overrideValue = none
  defaultValue : y.defaultValue = none
  jsonExample : y.jsonExample = none
  srcPtr : y.srcPtr = none
  destList : y.destList = []
  isConfigChanging : y.isConfigChanging = false

theorem Created.blank (hy : Created P e et y) : Blank y := by
  cases hy <;> exact ⟨rfl, rfl, rfl, rfl, rfl, rfl, rfl, rfl⟩

theorem Created.classOk (hy : Created P e et y) : ClassOk et y.cls := by
  cases hy <;> exact trivial

theorem Created.fixed (hy : Created P e et y) {t : DataType} {mandatory : Bool}
    (hc : y.cls = .ioPoint t mandatory) : y.currentType = t := by
  cases hy <;> cases hc <;> rfl

theorem Created.observation_eq (hy : Created P e et y) {o : Observation}
    (hc : y.cls = .observation o) : o = obsCreate := by
  cases hy <;> cases hc
  rfl

theorem Created.typed (hy : Created P e et y) : Typed y := by
  have hb := hy.blank
  refine ⟨by simp [hb.currentValue], by simp [hb.pushedValue], by simp [hb.overrideValue],
    by simp [hb.defaultValue], by simp [hb.jsonExample], fun t mandatory hc => hy.fixed hc, ?_⟩
  intro o hc
  rw [hy.observation_eq hc]
  exact bufferOk_obsCreate

/-- An override that is removed gives way to the pushed value or the default. -/
theorem fallback_cases {t : DataType} {s : DataSample} (hs : x.fallback = some (t, s)) :
    (x.pushedValue = some s ∧ x.acceptable x.pushedType = true) ∨ x.defaultValue = some s := by
  unfold Resource.fallback Resource.fallback.usable at hs
  split at hs
  · next s' hs' =>
    split at hs'
    · next hacc =>
      cases hs
      exact .inl ⟨hs', hacc⟩
    · cases hs'
  · rw [Option.map_eq_some_iff] at hs
    obtain ⟨s', hs', heq⟩ := hs
    cases heq
    split at hs'
    · exact .inr hs'
    · cases hs'

/-- The values that `moveValues` moves unconditionally. -/
theorem moveValues_moved (x y : Resource) (et : EntryType) :
    (moveValues P x y et).pushedValue = x.pushedValue ∧
    (moveValues P x y et).pushedType = x.pushedType ∧
    (moveValues P x y et).overrideValue = x.overrideValue ∧
    (moveValues P x y et).overrideType = x.overrideType ∧
    (moveValues P x y et).defaultValue = x.defaultValue ∧
    (moveValues P x y et).defaultType = x.defaultType ∧
    (moveValues P x y et).isConfigChanging = x.isConfigChanging ∧
    (moveValues P x y et).jsonExample = y.jsonExample := by
  unfold moveValues
  dsimp only
  split
  · split <;> exact ⟨rfl, rfl, rfl, rfl, rfl, rfl, rfl, rfl⟩
  · exact ⟨rfl, rfl, rfl, rfl, rfl, rfl, rfl, rfl⟩

/-- The current value is moved, except to an Input or Output of another data type. -/
theorem moveValues_current (x y : Resource) (et : EntryType) :
    ((et.isIo = true ∧ x.currentType ≠ y.currentType) ∧
      (moveValues P x y et).currentValue = y.currentValue ∧
      (moveValues P x y et).currentType = y.currentType) ∨
    ((et.isIo = true → x.currentType = y.currentType) ∧
      (moveValues P x y et).currentValue = x.currentValue ∧
      (moveValues P x y et).currentType = x.currentType) := by
  unfold moveValues
  cases hio : et.isIo with
  | true =>
    by_cases ht : x.currentType = y.currentType
    · simp [ht]
    · simp [ht]
  | false => simp [setUnits]

theorem units_moveValues_of_io (x y : Resource) (hio : et.isIo = true) :
    (moveValues P x y et).units = y.units := by
  unfold moveValues
  rw [if_pos hio]
  dsimp only
  split <;> rfl

theorem Created.typed_moveValues (hy : Created P e et y) (hx : Typed x) :
    Typed (moveValues P x y et) := by
  obtain ⟨hpv, hpt, hov, hot, hdv, hdt, _, hj⟩ := moveValues_moved (P := P) x y et
  have hb := hy.blank
  have hcur := moveValues_current (P := P) x y et
  have hcls := cls_moveValues (P := P) x y et
  refine ⟨?_, ?_, ?_, ?_, ?_, ?_, ?_⟩
  · intro s hs
    rcases hcur with ⟨_, hv, _⟩ | ⟨_, hv, ht⟩
    · rw [hv, hb.currentValue] at hs
      cases hs
    · rw [ht]
      exact hx.current s (hv ▸ hs)
  · rw [hpv, hpt]
    exact hx.pushed
  · rw [hov, hot]
    exact hx.override
  · rw [hdv, hdt]
    exact hx.default
  · rw [hj, hb.jsonExample]
    simp
  · intro t mandatory hc
    rw [hcls] at hc
    have hfixed := hy.fixed hc
    have hio := isIo_of_ioPoint hy.classOk hc
    rcases hcur with ⟨_, _, ht⟩ | ⟨heq, _, ht⟩
    · rw [ht, hfixed]
    · rw [ht, heq hio, hfixed]
  · rw [hcls]
    exact hy.typed.buffer

/-! ### Well-formedness -/

/-- Samples are of the types recorded for them, in resources of the right classes. -/
theorem typed_invariant (Ok : Event → Prop) :
    ResourceInvariant P Ok fun et x => ClassOk et x.cls ∧ Typed x := by
  refine ⟨?_, ?_, ?_, ?_, ?_⟩
  · intro et x
    constructor
    · rintro ⟨hc, a, b, c, d, e, f, g⟩
      exact ⟨hc, a, b, c, d, e, f, g⟩
    · rintro ⟨hc, a, b, c, d, e, f, g⟩
      exact ⟨hc, a, b, c, d, e, f, g⟩
  · intro r updating et x evs x' hc ht hedit _ _
    exact ⟨hedit.classOk hc, hedit.typed ht⟩
  · intro e et y hy
    exact ⟨hy.classOk, hy.typed⟩
  · rintro et x list ⟨hc, a, b, c, d, e, f, g⟩
    exact ⟨hc, a, b, c, d, e, f, g⟩
  · intro old new e et et' x y _ hc ht hy _ _
    refine ⟨?_, hy.typed_moveValues ht⟩
    rw [cls_moveValues]
    exact hy.classOk

end MangOH.DataHub
