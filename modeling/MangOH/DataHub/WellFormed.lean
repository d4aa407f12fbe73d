import MangOH.DataHub.Routes

/-! Well-formedness holds in every state: entries and resources refer to each other, whatever is
created, replaced and deleted. -/
namespace MangOH.DataHub

open Outcome

variable {P : Platform} {h h' : Hub} {r : ResRef} {e : EntryRef} {x y : Resource}
  {et : EntryType} {entry : Entry}

theorem Attached.wellFormed (ha : Attached h)
    (ht : Each (fun et x => ClassOk et x.cls ∧ Typed x) h) (hroutes : h.links.Consistent) :
    WellFormed h :=
  ⟨ha, fun r x entry hx he => (ht r x entry hx he).1, fun r x entry hx he => (ht r x entry hx he).2,
    hroutes⟩

theorem WellFormed.each (hwf : WellFormed h) :
    Each (fun et x => ClassOk et x.cls ∧ Typed x) h :=
  fun r x entry hx he => ⟨hwf.cls r x entry hx he, hwf.typed r x entry hx he⟩

theorem attached_sameCore (ha : Attached h) (hs : SameCore h h') : Attached h' := by
  refine ⟨?_, ?_, ?_, ?_, ?_, ?_⟩
  · rw [hs.resources, hs.entries]
    exact ha.entryOf
  · rw [hs.resources, hs.entries]
    exact ha.resourceOf
  · rw [hs.entries]
    exact ha.nameSpace
  · rw [hs.entries, hs.nextEntry]
    exact ha.entry_lt
  · rw [hs.resources, hs.nextRes]
    exact ha.res_lt
  · rw [hs.resources]
    intro r x hx op hop
    exact Nat.lt_of_lt_of_le (ha.reads r x hx op hop) hs.nextRead

theorem readOps_of_unrouted (hxy : x.unrouted = y.unrouted) : x.readOps = y.readOps := by
  have hcls : x.cls = y.cls :=
    show x.unrouted.cls = y.unrouted.cls from congrArg Resource.cls hxy
  unfold Resource.readOps
  rw [hcls]

theorem attached_routesOnly (ha : Attached h) (hs : RoutesOnly h h') : Attached h' := by
  refine ⟨?_, ?_, ?_, ?_, ?_, ?_⟩
  · intro r x hx
    obtain ⟨y, hy, hxy⟩ := exists_of_map_unrouted (hs.resources r) hx
    rw [hs.entries, entryRef_of_unrouted hxy]
    exact ha.entryOf r y hy
  · intro e entry r he hr
    rw [hs.entries] at he
    obtain ⟨x, hx, hxe⟩ := ha.resourceOf e entry r he hr
    obtain ⟨y, hy, hxy⟩ := exists_of_map_unrouted (hs.resources r).symm hx
    exact ⟨y, hy, by rw [← entryRef_of_unrouted hxy, hxe]⟩
  · rw [hs.entries]
    exact ha.nameSpace
  · rw [hs.entries, hs.nextEntry]
    exact ha.entry_lt
  · intro r x hx
    obtain ⟨y, hy, _⟩ := exists_of_map_unrouted (hs.resources r) hx
    rw [hs.nextRes]
    exact ha.res_lt r y hy
  · intro r x hx
    obtain ⟨y, hy, hxy⟩ := exists_of_map_unrouted (hs.resources r) hx
    rw [hs.nextRead, readOps_of_unrouted hxy]
    exact ha.reads r y hy

theorem attached_setResource (ha : Attached h) (hx : h.resources r = some x)
    (hplace : x.entryRef = y.entryRef) (hreads : ∀ op ∈ y.readOps, op.id < h.nextRead) :
    Attached (h.setResource r y) := by
  refine ⟨?_, ?_, ha.nameSpace, ha.entry_lt, ?_, ?_⟩
  · intro q z hz
    by_cases hq : q = r
    · subst hq
      simp only [Hub.setResource, Function.update_self, Option.some.injEq] at hz
      subst hz
      rw [← hplace]
      exact ha.entryOf q x hx
    · simp only [Hub.setResource, Function.update_of_ne hq] at hz
      exact ha.entryOf q z hz
  · intro e entry q he hq
    obtain ⟨z, hz, hze⟩ := ha.resourceOf e entry q he hq
    by_cases hqr : q = r
    · subst hqr
      cases hx.symm.trans hz
      exact ⟨y, by simp [Hub.setResource], hplace ▸ hze⟩
    · exact ⟨z, by simpa [Hub.setResource, hqr] using hz, hze⟩
  · intro q z hz
    by_cases hq : q = r
    · subst hq
      exact ha.res_lt q x hx
    · simp only [Hub.setResource, Function.update_of_ne hq] at hz
      exact ha.res_lt q z hz
  · intro q z hz
    by_cases hq : q = r
    · subst hq
      simp only [Hub.setResource, Function.update_self, Option.some.injEq] at hz
      subst hz
      exact hreads
    · simp only [Hub.setResource, Function.update_of_ne hq] at hz
      exact ha.reads q z hz

theorem attached_setHandlers (ha : Attached h) (hx : h.resources r = some x)
    (pushHandlerList : List HandlerRef) : Attached (h.setResource r { x with pushHandlerList }) :=
  attached_setResource (y := { x with pushHandlerList }) ha hx rfl fun op hop =>
    ha.reads r x hx op hop

theorem attached_addChild (ha : Attached h) {parent c : EntryRef} {name : CString}
    (hc : addChild P h parent name = .ok (h', c)) : Attached h' := by
  obtain ⟨p, hp, _, hh⟩ := (addChild_frame h parent name).result hc
  dsimp only at hh
  subst hh
  have hkeep : ∀ {e entry}, h.entries e = some entry → ∃ entry',
      Function.update (Function.update h.entries parent (some { p with
        refCount := p.refCount + 1, childList := p.childList ++ [h.nextEntry] })) h.nextEntry
        (some { parentPtr := some parent, name := leUtf8Copy P (hubMaxEntryNameBytes P) name,
                childList := [], type := .nameSpace, resourcePtr := none, refCount := 1 }) e
        = some entry' ∧ entry'.resourcePtr = entry.resourcePtr := by
    intro e entry he
    have hne : e ≠ h.nextEntry := Nat.ne_of_lt (ha.entry_lt e entry he)
    rw [Function.update_of_ne hne]
    by_cases hep : e = parent
    · subst hep
      cases hp.symm.trans he
      exact ⟨_, Function.update_self .., rfl⟩
    · rw [Function.update_of_ne hep]
      exact ⟨entry, he, rfl⟩
  have hfrom : ∀ {e entry'},
      Function.update (Function.update h.entries parent (some { p with
        refCount := p.refCount + 1, childList := p.childList ++ [h.nextEntry] })) h.nextEntry
        (some { parentPtr := some parent, name := leUtf8Copy P (hubMaxEntryNameBytes P) name,
                childList := [], type := .nameSpace, resourcePtr := none, refCount := 1 }) e
        = some entry' →
      (e = h.nextEntry ∧ entry'.type = .nameSpace ∧ entry'.resourcePtr = none) ∨
      ∃ entry, h.entries e = some entry ∧ entry'.type = entry.type ∧
        entry'.resourcePtr = entry.resourcePtr := by
    intro e entry' he
    by_cases hne : e = h.nextEntry
    · subst hne
      rw [Function.update_self] at he
      cases he
      exact .inl ⟨rfl, rfl, rfl⟩
    · rw [Function.update_of_ne hne] at he
      by_cases hep : e = parent
      · subst hep
        rw [Function.update_self] at he
        cases he
        exact .inr ⟨p, hp, rfl, rfl⟩
      · rw [Function.update_of_ne hep] at he
        exact .inr ⟨entry', he, rfl, rfl⟩
  refine ⟨?_, ?_, ?_, ?_, ha.res_lt, ha.reads⟩
  · intro r x hx
    obtain ⟨entry, he, hr⟩ := ha.entryOf r x hx
    obtain ⟨entry', he', hr'⟩ := hkeep he
    exact ⟨entry', he', hr'.trans hr⟩
  · intro e entry' r he hr
    rcases hfrom he with ⟨_, _, hnone⟩ | ⟨entry, he₀, _, hr₀⟩
    · rw [hnone] at hr
      cases hr
    · exact ha.resourceOf e entry r he₀ (hr₀ ▸ hr)
  · intro e entry' he
    rcases hfrom he with ⟨_, ht, hnone⟩ | ⟨entry, he₀, ht₀, hr₀⟩
    · exact iff_of_true ht hnone
    · rw [ht₀, hr₀]
      exact ha.nameSpace e entry he₀
  · intro e entry' he
    rcases hfrom he with ⟨rfl, _⟩ | ⟨entry, he₀, _⟩
    · exact Nat.lt_succ_self _
    · exact Nat.lt_succ_of_lt (ha.entry_lt e entry he₀)

theorem attached_released (ha : Attached h) (hs : EntriesReleased h h') : Attached h' := by
  refine ⟨?_, ?_, ?_, ?_, ?_, ?_⟩
  · intro r x hx
    rw [hs.resources] at hx
    obtain ⟨entry, he, hr⟩ := ha.entryOf r x hx
    obtain ⟨entry', he', _, hr'⟩ := hs.attached _ entry he (by simp [hr])
    exact ⟨entry', he', hr'.trans hr⟩
  · intro e entry' r he hr
    obtain ⟨entry, he₀, _, hr₀⟩ := hs.kept e entry' he
    rw [hs.resources]
    exact ha.resourceOf e entry r he₀ (hr₀ ▸ hr)
  · intro e entry' he
    obtain ⟨entry, he₀, ht₀, hr₀⟩ := hs.kept e entry' he
    rw [ht₀, hr₀]
    exact ha.nameSpace e entry he₀
  · intro e entry' he
    obtain ⟨entry, he₀, _⟩ := hs.kept e entry' he
    rw [hs.nextEntry]
    exact ha.entry_lt e entry he₀
  · rw [hs.resources, hs.nextRes]
    exact ha.res_lt
  · rw [hs.resources, hs.nextRead]
    exact ha.reads

theorem attached_removed (ha : Attached h) (hx : h.resources r = some x)
    (he : h.entries x.entryRef = some entry) : Attached (removed h r x entry) := by
  obtain ⟨entry₁, he₁, hr₁⟩ := ha.entryOf r x hx
  cases he.symm.trans he₁
  have hfrom : ∀ {q z}, (removed h r x entry).resources q = some z →
      q ≠ r ∧ h.resources q = some z ∧ z.entryRef ≠ x.entryRef := by
    intro q z hz
    by_cases hq : q = r
    · subst hq
      simp [removed, freed] at hz
    · simp only [removed, freed, Function.update_of_ne hq] at hz
      refine ⟨hq, hz, fun hze => ?_⟩
      obtain ⟨entry₂, he₂, hr₂⟩ := ha.entryOf q z hz
      rw [hze] at he₂
      cases he.symm.trans he₂
      exact hq (Option.some.inj (hr₂.symm.trans hr₁))
  refine ⟨?_, ?_, ?_, ?_, ?_, ?_⟩
  · intro q z hz
    obtain ⟨_, hz₀, hne⟩ := hfrom hz
    obtain ⟨entry₂, he₂, hr₂⟩ := ha.entryOf q z hz₀
    exact ⟨entry₂, by simpa [removed, freed, hne] using he₂, hr₂⟩
  · intro e entry' q he' hq
    by_cases hex : e = x.entryRef
    · subst hex
      simp only [removed, Function.update_self, Option.some.injEq] at he'
      subst he'
      cases hq
    · simp only [removed, freed, Function.update_of_ne hex] at he'
      obtain ⟨z, hz, hze⟩ := ha.resourceOf e entry' q he' hq
      have hqr : q ≠ r := by
        rintro rfl
        cases hx.symm.trans hz
        exact hex hze.symm
      exact ⟨z, by simpa [removed, freed, hqr] using hz, hze⟩
  · intro e entry' he'
    by_cases hex : e = x.entryRef
    · subst hex
      simp only [removed, Function.update_self, Option.some.injEq] at he'
      subst he'
      exact iff_of_true rfl rfl
    · simp only [removed, freed, Function.update_of_ne hex] at he'
      exact ha.nameSpace e entry' he'
  · intro e entry' he'
    by_cases hex : e = x.entryRef
    · subst hex
      exact ha.entry_lt _ entry he
    · simp only [removed, freed, Function.update_of_ne hex] at he'
      exact ha.entry_lt e entry' he'
  · intro q z hz
    exact ha.res_lt q z (hfrom hz).2.1
  · intro q z hz
    exact ha.reads q z (hfrom hz).2.1

theorem Created.readOps (hy : Created P e et y) : y.readOps = [] := by
  cases hy <;> rfl

theorem Created.type_ne (hy : Created P e et y) : et ≠ .nameSpace := by
  cases hy <;> simp

theorem attached_replaced (hwf : WellFormed h) (he : h.entries e = some entry)
    (hy : Created P e et y) (hr : Replaced P h e y et entry h') : Attached h' := by
  have hnew : ∃ z, h'.resources h.nextRes = some z ∧ z.entryRef = e := by
    cases hold : entry.resourcePtr with
    | none =>
      obtain ⟨hres, _⟩ := hr.attach hold
      exact ⟨y, by simp [hres], hy.entryRef⟩
    | some old =>
      obtain ⟨x, evs, _, hres, _⟩ := hr.move old hold
      obtain ⟨x', hx', _⟩ := hwf.resourceOf e entry old he hold
      have hq := hres h.nextRes
      rw [Function.update_of_ne (hwf.ne_nextRes hx').symm, Function.update_self] at hq
      obtain ⟨z, hz, hzu⟩ := exists_of_map_unrouted hq.symm rfl
      exact ⟨z, hz, by rw [← entryRef_of_unrouted hzu, entryRef_moveValues, hy.entryRef]⟩
  refine ⟨?_, ?_, ?_, ?_, ?_, ?_⟩
  · intro q z hz
    rw [hr.entries]
    rcases replaced_cases hwf he hy.entryRef hr hz with
      ⟨x, hx, hxe, hzx⟩ | ⟨rfl, _, rfl, _⟩ | ⟨rfl, old, x, _, _, _, hzx, _⟩
    · rw [entryRef_of_unrouted hzx, Function.update_of_ne hxe]
      exact hwf.entryOf q x hx
    · rw [hy.entryRef, Function.update_self]
      exact ⟨_, rfl, rfl⟩
    · rw [entryRef_of_unrouted hzx, entryRef_moveValues, hy.entryRef, Function.update_self]
      exact ⟨_, rfl, rfl⟩
  · intro e' entry' q he' hq
    rw [hr.entries] at he'
    by_cases hee : e' = e
    · subst hee
      rw [Function.update_self] at he'
      cases he'
      cases hq
      exact hnew
    · rw [Function.update_of_ne hee] at he'
      obtain ⟨z, hz, hze⟩ := hwf.resourceOf e' entry' q he' hq
      have hqn := hwf.ne_nextRes hz
      cases hold : entry.resourcePtr with
      | none =>
        obtain ⟨hres, _⟩ := hr.attach hold
        exact ⟨z, by rw [hres, Function.update_of_ne hqn, hz], hze⟩
      | some old =>
        obtain ⟨x, evs, _, hres, _⟩ := hr.move old hold
        have hqo : q ≠ old := by
          rintro rfl
          obtain ⟨x', hx', hxe⟩ := hwf.resourceOf e entry q he hold
          cases hz.symm.trans hx'
          exact hee (hze.symm.trans hxe)
        have hmap := hres q
        rw [Function.update_of_ne hqo, Function.update_of_ne hqn, hz] at hmap
        obtain ⟨w, hw, hwu⟩ := exists_of_map_unrouted hmap.symm rfl
        exact ⟨w, hw, by rw [← entryRef_of_unrouted hwu, hze]⟩
  · intro e' entry' he'
    rw [hr.entries] at he'
    by_cases hee : e' = e
    · subst hee
      rw [Function.update_self] at he'
      cases he'
      exact iff_of_false hy.type_ne (by simp)
    · rw [Function.update_of_ne hee] at he'
      exact hwf.nameSpace e' entry' he'
  · intro e' entry' he'
    rw [hr.entries] at he'
    rw [hr.nextEntry]
    by_cases hee : e' = e
    · subst hee
      exact hwf.entry_lt e' entry he
    · rw [Function.update_of_ne hee] at he'
      exact hwf.entry_lt e' entry' he'
  · intro q z hz
    rw [hr.nextRes]
    rcases replaced_cases hwf he hy.entryRef hr hz with
      ⟨x, hx, _⟩ | ⟨rfl, _⟩ | ⟨rfl, _⟩
    · exact Nat.lt_succ_of_lt (hwf.res_lt q x hx)
    · exact Nat.lt_succ_self _
    · exact Nat.lt_succ_self _
  · intro q z hz op hop
    refine Nat.lt_of_lt_of_le ?_ hr.nextRead
    rcases replaced_cases hwf he hy.entryRef hr hz with
      ⟨x, hx, _, hzx⟩ | ⟨rfl, _, rfl, _⟩ | ⟨rfl, old, x, _, _, _, hzx, _⟩
    · rw [readOps_of_unrouted hzx] at hop
      exact hwf.reads q x hx op hop
    · rw [hy.readOps] at hop
      cases hop
    · have hread : z.readOps = y.readOps := by
        rw [readOps_of_unrouted hzx]
        unfold Resource.readOps
        rw [cls_moveValues]
      rw [hread, hy.readOps] at hop
      cases hop

theorem wellFormed_micro (hwf : WellFormed h) (hm : Micro P h h') : WellFormed h' := by
  refine Attached.wellFormed ?_
    (each_micro (typed_invariant fun _ => True) hwf hwf.each hm fun _ _ => trivial)
    ((rerouted_micro hwf hm).consistent hwf.routes)
  have ha := hwf.toAttached
  cases hm with
  | ambient hsame => exact attached_sameCore ha hsame
  | startUpdate => exact ⟨ha.1, ha.2, ha.3, ha.4, ha.5, ha.6⟩
  | endUpdate => exact ⟨ha.1, ha.2, ha.3, ha.4, ha.5, ha.6⟩
  | edit hx he hedit hreads hsame hlog =>
    exact attached_sameCore
      (attached_setResource ha hx hedit.samePlace.entryRef.symm hreads) hsame
  | @addHandler r x hx t =>
    have ha' := attached_setHandlers ha hx (x.pushHandlerList ++ [h.nextHandler])
    exact ⟨ha'.1, ha'.2, ha'.3, ha'.4, ha'.5, ha'.6⟩
  | @removeHandler p handler x hp hx =>
    have ha' := attached_setHandlers ha hx (x.pushHandlerList.erase p)
    exact ⟨ha'.1, ha'.2, ha'.3, ha'.4, ha'.5, ha'.6⟩
  | unlink dest hu => exact attached_routesOnly ha ((routesOnly_unlinkSource h dest).result hu)
  | link dest src fuel hd hnone hloop hl =>
    have hemit : Attached (h.emit (.routing dest src)) := ⟨ha.1, ha.2, ha.3, ha.4, ha.5, ha.6⟩
    exact attached_routesOnly hemit ((routesOnly_linkSource _ dest src).result hl)
  | addChild parent name hc => exact attached_addChild ha hc
  | replace he hre hy hr =>
    exact attached_replaced hwf he hy (replaceResource_replaced hwf he hr).2
  | remove hx he hsrc hdest hsame hlog hfreed hrel =>
    exact attached_released (attached_sameCore (attached_removed ha hx he) hsame)
      ((releaseEntry_frame _ _ _).result hrel)

theorem wellFormed_boot (env : Environment) (files : List (CString × Bytes)) :
    WellFormed (boot env files) := by
  refine ⟨⟨by simp [boot], ?_, ?_, ?_, by simp [boot], by simp [boot]⟩, ?_, ?_,
    fun s d => by simp [Hub.links, boot]⟩
  · intro e entry r he hr
    simp only [boot] at he
    split at he
    · cases he
      cases hr
    · cases he
  · intro e entry he
    simp only [boot] at he
    split at he
    · cases he
      simp
    · cases he
  · intro e entry he
    simp only [boot] at he ⊢
    split at he
    · next h0 => simp [h0, rootPtr]
    · cases he
  · intro r x entry hx
    cases hx
  · intro r x entry hx
    cases hx

end MangOH.DataHub
