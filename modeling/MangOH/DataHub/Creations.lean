import MangOH.DataHub.HandlerLists
import MangOH.DataHub.Scenario

/-! Where resources come from: each has been created once, and its entry has kept the type of that
creation and its resource the data type declared then. -/
namespace MangOH.DataHub

open Outcome

variable {P : Platform} {h h' : Hub} {r : ResRef} {x x' y : Resource} {e : EntryRef}
  {et : EntryType} {entry entry' : Entry} {t : DataType} {evs : List Event}

/-- The data type that the app has declared for an Input or Output. -/
def Resource.declared (x : Resource) : Option DataType :=
  match x.cls with
  | .ioPoint t _ => some t
  | _ => none

/-- The resource whose creation an event reports, and the type that its entry gets. -/
def Event.creation : Event → Option (ResRef × EntryType × Resource)
  | .attaching _ _ r et y => some (r, et, y)
  | .replacing _ r _ et y => some (r, et, y)
  | _ => none

/-- All resources ever created, as they were then. -/
def Hub.creations (h : Hub) : List (ResRef × EntryType × Resource) :=
  h.log.filterMap Event.creation

theorem declared_of_cls (hc : x.cls = y.cls) : x.declared = y.declared := by
  unfold Resource.declared
  rw [hc]

theorem ClassEdit.declared {obsEvs : List ObsEvent} (hc : ClassEdit P x.cls obsEvs x'.cls) :
    x'.declared = x.declared := by
  unfold Resource.declared
  generalize x.cls = cls at hc
  generalize x'.cls = cls' at hc
  cases hc <;> rfl

theorem Created.declared (hy : Created P e et y) (hio : et.isIo = true) :
    y.declared = some y.currentType := by
  cases hy with
  | input => rfl
  | output => rfl
  | observation => cases hio
  | placeholder => cases hio

theorem Edit.creation_eq {updating : Bool} (hedit : Edit P r updating et x evs x') :
    evs.filterMap Event.creation = [] := by
  have hobs : ∀ obsEvs : List ObsEvent,
      (obsEvs.map (Event.obs r)).filterMap Event.creation = [] := by
    intro obsEvs
    simp [List.filterMap_eq_nil_iff, Event.creation]
  cases hedit <;> simp [Event.creation, hobs]

theorem Note.creation_eq {ev : Event} (hn : Note ev) : ev.creation = none := by
  cases hn <;> rfl

/-- An atomic change creates at most one resource, under a new number. -/
theorem creations_micro (hwf : WellFormed h) (hm : Micro P h h') :
    h'.creations = h.creations ∨ ∃ et y,
      h'.creations = h.creations ++ [(h.nextRes, et, y)] ∧ h'.nextRes = h.nextRes + 1 := by
  obtain ⟨evs, hlog, hlogs⟩ := logs_micro hwf hm
  have hquiet : evs.filterMap Event.creation = [] → h'.creations = h.creations := by
    intro hnil
    rw [Hub.creations, hlog, List.filterMap_append, hnil, List.append_nil]
    rfl
  have hnew : ∀ et y, evs.filterMap Event.creation = [(h.nextRes, et, y)] →
      h'.creations = h.creations ++ [(h.nextRes, et, y)] := by
    intro et y hone
    rw [Hub.creations, hlog, List.filterMap_append, hone]
    rfl
  cases hlogs with
  | notes hn =>
    refine .inl (hquiet (List.filterMap_eq_nil_iff.mpr fun ev hev => ?_))
    exact (hn.note ev hev).creation_eq
  | endUpdate => exact .inl (hquiet rfl)
  | edit _ _ hedit => exact .inl (hquiet hedit.creation_eq)
  | attach he hnone hy hnext => exact .inr ⟨_, _, hnew _ _ rfl, hnext⟩
  | replace hx he hre hy hnext => exact .inr ⟨_, _, hnew _ _ rfl, hnext⟩
  | free r hfreed =>
    exact .inl (hquiet (by simp [List.filterMap_eq_nil_iff, Event.creation]))

/-! ### Each resource stems from its creation -/

/-- A resource is as it was before, as far as its place and its declared type are concerned, or it
has just been created. -/
inductive Origin (P : Platform) (h h' : Hub) (r : ResRef) (x' : Resource) (et : EntryType) : Prop
  | kept {x : Resource} {entry : Entry} (hx : h.resources r = some x)
      (he : h.entries x.entryRef = some entry) (hplace : x'.entryRef = x.entryRef)
      (ht : et = entry.type) (hd : x'.declared = x.declared)
  | created {y : Resource} (hr : r = h.nextRes) (hy : Created P x'.entryRef et y)
      (hd : x'.declared = y.declared) (hmem : (r, et, y) ∈ h'.creations)

theorem origin_of_unrouted (hent : h'.entries = h.entries)
    (hres : (h'.resources r).map Resource.unrouted = (h.resources r).map Resource.unrouted)
    (hx' : h'.resources r = some x') (he' : h'.entries x'.entryRef = some entry') :
    Origin P h h' r x' entry'.type := by
  obtain ⟨x, hx, hxx⟩ := exists_of_map_unrouted hres hx'
  rw [hent, entryRef_of_unrouted hxx] at he'
  exact .kept hx he' (entryRef_of_unrouted hxx) rfl
    (declared_of_cls (show x'.unrouted.cls = _ by rw [hxx]; rfl))

theorem origin_micro (hwf : WellFormed h) (hm : Micro P h h') (hx' : h'.resources r = some x')
    (he' : h'.entries x'.entryRef = some entry') : Origin P h h' r x' entry'.type := by
  have hset : ∀ {q : ResRef} {z w : Resource}, h.resources q = some z →
      w.entryRef = z.entryRef → w.declared = z.declared → h'.entries = h.entries →
      (h.setResource q w).resources r = some x' → Origin P h h' r x' entry'.type := by
    intro q z w hz hplace hd hent hx'
    rw [hent] at he'
    by_cases hq : r = q
    · subst hq
      simp only [Hub.setResource, Function.update_self, Option.some.injEq] at hx'
      subst hx'
      exact .kept hz (hplace ▸ he') hplace rfl hd
    · simp only [Hub.setResource, Function.update_of_ne hq] at hx'
      exact .kept hx' he' rfl rfl rfl
  cases hm with
  | ambient hsame => exact .kept (hsame.resources ▸ hx') (hsame.entries ▸ he') rfl rfl rfl
  | startUpdate => exact .kept hx' he' rfl rfl rfl
  | endUpdate => exact .kept hx' he' rfl rfl rfl
  | edit hx he hedit hreads hsame hlog =>
    obtain ⟨_, _, _, hcls⟩ := hedit.classEdit
    rw [hsame.resources] at hx'
    exact hset hx hedit.samePlace.entryRef hcls.declared hsame.entries hx'
  | @addHandler q x hx t =>
    exact hset (w := { x with pushHandlerList := x.pushHandlerList ++ [h.nextHandler] }) hx
      rfl rfl rfl hx'
  | @removeHandler p handler x hp hx =>
    exact hset (w := { x with pushHandlerList := x.pushHandlerList.erase p }) hx rfl rfl rfl hx'
  | unlink dest hu =>
    have hs := (routesOnly_unlinkSource h dest).result hu
    exact origin_of_unrouted hs.entries (hs.resources r) hx' he'
  | link dest src fuel hd hnone hloop hl =>
    have hs := (routesOnly_linkSource _ dest src).result hl
    exact origin_of_unrouted hs.entries (hs.resources r) hx' he'
  | addChild parent name ha =>
    have hI : Each (fun et z => ∀ x entry, h.resources r = some x → x = z →
        h.entries x.entryRef = some entry → et = entry.type) h := by
      rintro q z entry hz hez x entry₀ hx rfl he₀
      cases hez.symm.trans he₀
      rfl
    obtain ⟨p, _, _, hh⟩ := (addChild_frame h parent name).result ha
    dsimp only at hh
    have hx : h.resources r = some x' := by simpa [hh] using hx'
    obtain ⟨entry, he, _⟩ := hwf.entryOf r x' hx
    exact .kept hx he rfl (each_addChild hwf hI ha r x' entry' hx' he' x' entry hx rfl he) rfl
  | @replace _ e q entry et y he hre hy hr =>
    have hrep := (replaceResource_replaced hwf he hr).2
    rw [hrep.entries] at he'
    have hnew : x'.entryRef = e → entry'.type = et := by
      intro hxe
      rw [hxe, Function.update_self] at he'
      cases he'
      rfl
    rcases replaced_cases hwf he hy.entryRef hrep hx' with
      ⟨x, hx, hxe, hzx⟩ | ⟨rfl, _, rfl, hlog⟩ | ⟨rfl, old, x, hold, hx, hxe, hzx, hlog⟩
    · have hplace := entryRef_of_unrouted hzx
      rw [hplace, Function.update_of_ne hxe] at he'
      exact .kept hx he' hplace rfl (declared_of_cls (show x'.unrouted.cls = _ by rw [hzx]; rfl))
    · rw [hnew hy.entryRef]
      exact .created rfl (hy.entryRef.symm ▸ hy) rfl (List.mem_filterMap.mpr ⟨_, hlog, rfl⟩)
    · have hplace : x'.entryRef = e := by
        rw [entryRef_of_unrouted hzx, entryRef_moveValues]
        exact hy.entryRef
      have hcls : x'.cls = (moveValues P x y et).cls :=
        show x'.unrouted.cls = _ by rw [hzx]; rfl
      rw [hnew hplace]
      exact .created rfl (hplace.symm ▸ hy) (declared_of_cls (hcls.trans (cls_moveValues x y et)))
        (List.mem_filterMap.mpr ⟨_, hlog, rfl⟩)
  | @remove h₁ _ q x entry evs hx he hsrc hdest hsame hlog hfreed hrel =>
    have hrel' := (releaseEntry_frame _ _ _).result hrel
    obtain ⟨entry₁, he₁, ht₁, _⟩ := hrel'.kept _ _ he'
    rw [hrel'.resources, hsame.resources] at hx'
    rw [hsame.entries] at he₁
    have hq : r ≠ q := by
      rintro rfl
      simp [removed, freed] at hx'
    simp only [removed, freed, Function.update_of_ne hq] at hx'
    have hqe : x'.entryRef ≠ x.entryRef := by
      intro heq
      have hptr := hwf.resourcePtr hx' (heq ▸ he)
      exact hq (Option.some.inj (hptr.symm.trans (hwf.resourcePtr hx he)))
    simp only [removed, freed, Function.update_of_ne hqe] at he₁
    exact .kept hx' he₁ rfl ht₁ rfl

/-- Every resource has been created once, and its entry is still of the type, and the resource of
the declared data type, of that creation. -/
structure CreatedOnce (P : Platform) (h : Hub) : Prop where
  nodup : (h.creations.map Prod.fst).Nodup
  lt : ∀ c ∈ h.creations, c.1 < h.nextRes
  from_creation : ∀ r x entry, h.resources r = some x → h.entries x.entryRef = some entry →
    ∃ y, Created P x.entryRef entry.type y ∧ (r, entry.type, y) ∈ h.creations ∧
      x.declared = y.declared

theorem createdOnce_micro (hwf : WellFormed h) (hm : Micro P h h') (hc : CreatedOnce P h) :
    CreatedOnce P h' := by
  have hle : h.nextRes ≤ h'.nextRes := (dead_micro (r := 0) hwf hm).1
  have hcre := creations_micro hwf hm
  have hsub : ∀ c ∈ h.creations, c ∈ h'.creations := by
    rcases hcre with heq | ⟨et, y, heq, _⟩
    · exact fun c hmem => heq ▸ hmem
    · exact fun c hmem => heq ▸ List.mem_append_left _ hmem
  refine ⟨?_, ?_, ?_⟩
  · rcases hcre with heq | ⟨et, y, heq, _⟩
    · rw [heq]
      exact hc.nodup
    · rw [heq, List.map_append, List.nodup_append]
      refine ⟨hc.nodup, List.nodup_singleton _, ?_⟩
      rintro a ha b hb rfl
      obtain ⟨c, hmem, rfl⟩ := List.mem_map.mp ha
      have hlt := hc.lt c hmem
      simp only [List.map_cons, List.map_nil, List.mem_singleton] at hb
      exact absurd hlt (by rw [hb]; exact Nat.lt_irrefl _)
  · rcases hcre with heq | ⟨et, y, heq, hnext⟩
    · rw [heq]
      exact fun c hmem => Nat.lt_of_lt_of_le (hc.lt c hmem) hle
    · rw [heq, hnext]
      intro c hmem
      rcases List.mem_append.mp hmem with hmem | hmem
      · exact Nat.lt_succ_of_lt (hc.lt c hmem)
      · rw [List.mem_singleton.mp hmem]
        exact Nat.lt_succ_self _
  · intro r x' entry' hx' he'
    cases origin_micro hwf hm hx' he' with
    | kept hx he hplace ht hd =>
      obtain ⟨y, hy, hmem, hdecl⟩ := hc.from_creation r _ _ hx he
      rw [ht, hplace]
      exact ⟨y, hy, hsub _ hmem, hd.trans hdecl⟩
    | created hr hy hd hmem => exact ⟨_, hy, hmem, hd⟩

theorem createdOnce_boot (env : Environment) (files : List (CString × Bytes)) :
    CreatedOnce P (boot env files) := by
  refine ⟨List.nodup_nil, fun c hmem => ?_, fun r x entry hx => ?_⟩
  · cases hmem
  · cases hx

theorem reachable_createdOnce (hr : Reachable P h) : CreatedOnce P h :=
  reachable_induction (fun _ => True) createdOnce_boot
    (fun _ _ hwf hm _ hc => createdOnce_micro hwf hm hc) hr fun _ _ => trivial

theorem CreatedOnce.unique (hc : CreatedOnce P h) {et' : EntryType} {y' : Resource}
    (hy : (r, et, y) ∈ h.creations) (hy' : (r, et', y') ∈ h.creations) : et' = et ∧ y' = y := by
  have heq := List.inj_on_of_nodup_map hc.nodup hy' hy rfl
  cases heq
  exact ⟨rfl, rfl⟩

/-! ### The type of an Input or Output is fixed -/

/-- A resource has been created once, as an Input or Output of some data type at some entry. -/
structure DeclaredOnce (P : Platform) (h : Hub) (r : ResRef) (e : EntryRef) (et : EntryType)
    (t : DataType) : Prop where
  created : ∃ units, (et = .input ∧ (r, et, resCreateInput P e t units) ∈ h.creations) ∨
    et = .output ∧ (r, et, resCreateOutput P e t units) ∈ h.creations
  once : ∀ et' y, (r, et', y) ∈ h.creations → et' = et ∧ y.declared = some t

theorem CreatedOnce.declared (hc : CreatedOnce P h) (hio : et.isIo = true)
    (hy : Created P e et y) (hmem : (r, et, y) ∈ h.creations) :
    DeclaredOnce P h r e et y.currentType := by
  refine ⟨?_, ?_⟩
  · cases hy with
    | input t units => exact ⟨units, .inl ⟨rfl, hmem⟩⟩
    | output t units => exact ⟨units, .inr ⟨rfl, hmem⟩⟩
    | observation => cases hio
    | placeholder => cases hio
  · intro et' y' hmem'
    obtain ⟨rfl, rfl⟩ := hc.unique hmem hmem'
    exact ⟨rfl, hy.declared hio⟩

/-- Every Input and Output has the data type declared at its creation, and a current value only of
that type. -/
theorem currentType_fixed (hr : Reachable P h) (he : h.entries e = some entry)
    (hio : entry.type.isIo = true) : ∃ r x t, entry.resourcePtr = some r ∧
      h.resources r = some x ∧ DeclaredOnce P h r e entry.type t ∧ x.currentType = t ∧
      ∀ s, x.currentValue = some s → s.type = t := by
  have hwf := reachable_wellFormed hr
  have hc := reachable_createdOnce hr
  obtain ⟨r, hptr⟩ : ∃ r, entry.resourcePtr = some r := by
    cases hp : entry.resourcePtr with
    | some r => exact ⟨r, rfl⟩
    | none =>
      rw [(hwf.nameSpace e entry he).mpr hp] at hio
      cases hio
  obtain ⟨x, hx, rfl⟩ := hwf.resourceOf e entry r he hptr
  obtain ⟨t, mandatory, hcls⟩ := ioPoint_of_isIo (hwf.cls r x entry hx he) hio
  have htyped := hwf.typed r x entry hx he
  obtain ⟨y, hy, hmem, hdecl⟩ := hc.from_creation r x entry hx he
  have ht : y.currentType = t := by
    rw [hy.declared hio, Resource.declared, hcls] at hdecl
    exact (Option.some.inj hdecl).symm
  have hcur := htyped.fixed t mandatory hcls
  refine ⟨r, x, t, hptr, hx, ht ▸ hc.declared hio hy hmem, hcur, fun s hs => ?_⟩
  exact (htyped.current s hs).trans hcur

/-- A string waits at a Placeholder that becomes a numeric Input, to which a Boolean is pushed. -/
def overPlaceholderRun : List Op :=
  [.adminSetDefault (ascii "/app/a/x") (.string (ascii "on")),
   .ioCreateInput 0 (ascii "x") .numeric [],
   .ioPush 0 (ascii "x") (double 3) (.boolean true)]

theorem currentType_fixed_overPlaceholderRun : ∃ h entry, Reachable smallPlatform h ∧
    h.entries 3 = some entry ∧ entry.type.isIo = true ∧ ∃ r x t, entry.resourcePtr = some r ∧
      h.resources r = some x ∧ DeclaredOnce smallPlatform h r 3 entry.type t ∧ x.currentType = t ∧
      ∀ s, x.currentValue = some s → s.type = t := by
  have hrun : smallRunEnds overPlaceholderRun (fun h =>
      (h.entries 3).any fun entry => entry.type.isIo) = true := by
    decide +kernel
  obtain ⟨h, hr, hp⟩ := exists_of_smallRunEnds hrun
  obtain ⟨entry, he, hio⟩ := (Option.any_eq_true _ _).mp hp
  exact ⟨h, entry, hr, he, hio, currentType_fixed hr he hio⟩

end MangOH.DataHub
