import MangOH.DataHub.SettingsTrace

/-! Deleting an Observation. It loses its values before its routes; the routes do not notice, so
that the values can be left in place until the resource goes. -/
namespace MangOH.DataHub

open Outcome

variable {P : Platform} {b h h' : Hub} {r : ResRef} {x : Resource}

/-- Apply a function to a resource, if it is there. -/
def Hub.mapResource (h : Hub) (r : ResRef) (g : Resource → Resource) : Hub :=
  { h with resources := Function.update h.resources r ((h.resources r).map g) }

def Resource.dropValues (x : Resource) : Resource :=
  { x with currentValue := none, pushedValue := none }

theorem mapResource_same (h : Hub) (r : ResRef) (g : Resource → Resource) :
    (h.mapResource r g).resources r = (h.resources r).map g := Function.update_self ..

theorem mapResource_other (h : Hub) {r q : ResRef} (hq : q ≠ r) (g : Resource → Resource) :
    (h.mapResource r g).resources q = h.resources q := Function.update_of_ne hq ..

theorem mapResource_setResource (h : Hub) (r q : ResRef) (g : Resource → Resource) (x : Resource) :
    (h.setResource q x).mapResource r g
      = (h.mapResource r g).setResource q (if q = r then g x else x) := by
  by_cases hq : q = r
  · subst hq
    simp [Hub.mapResource, Hub.setResource]
  · rw [if_neg hq]
    unfold Hub.mapResource Hub.setResource
    dsimp only
    rw [Function.update_of_ne (Ne.symm hq), Function.update_comm hq]

theorem getResource_mapResource (h : Hub) (r q : ResRef) (g : Resource → Resource) :
    (h.mapResource r g).getResource q
      = (fun x => if q = r then g x else x) <$> h.getResource q := by
  unfold Hub.getResource
  by_cases hq : q = r
  · subst hq
    rw [mapResource_same]
    cases h.resources q <;> simp
  · rw [mapResource_other h hq]
    cases h.resources q <;> simp [hq]

/-- A change of other fields commutes with the loss of values. -/
theorem modifyResource_dropValues (h : Hub) (r q : ResRef) {f : Resource → Resource}
    (hf : ∀ x, f x.dropValues = (f x).dropValues) :
    (h.mapResource r .dropValues).modifyResource q f
      = (·.mapResource r .dropValues) <$> h.modifyResource q f := by
  unfold Hub.modifyResource
  rw [getResource_mapResource]
  cases hx : h.getResource q with
  | error e => rfl
  | ok x =>
    simp only [map_ok, ok_bind, pure, Except.pure, mapResource_setResource]
    by_cases hq : q = r <;> simp [hq, hf]

theorem unlinkSource_dropValues (h : Hub) (r dest : ResRef) :
    unlinkSource (h.mapResource r .dropValues) dest
      = (·.mapResource r .dropValues) <$> unlinkSource h dest := by
  unfold unlinkSource
  rw [getResource_mapResource]
  cases hd : h.getResource dest with
  | error e => rfl
  | ok d =>
    have hsrc : (if dest = r then d.dropValues else d).srcPtr = d.srcPtr := by split <;> rfl
    simp only [map_ok, ok_bind, hsrc]
    cases d.srcPtr with
    | none => rfl
    | some src =>
      dsimp only
      rw [modifyResource_dropValues h r src
        (f := fun x => { x with destList := x.destList.erase dest }) fun _ => rfl]
      cases h.modifyResource src fun x => { x with destList := x.destList.erase dest } with
      | error e => rfl
      | ok h₁ => exact modifyResource_dropValues h₁ r dest fun _ => rfl

theorem clearUnits_dropValues (h : Hub) (r dest : ResRef) :
    clearUnits P (h.mapResource r .dropValues) dest
      = (·.mapResource r .dropValues) <$> clearUnits P h dest := by
  unfold clearUnits
  rw [getResource_mapResource]
  cases hd : h.getResource dest with
  | error e => rfl
  | ok d =>
    have htype : (h.mapResource r .dropValues).entryType (if dest = r then d.dropValues else d)
        = h.entryType d := by
      split <;> rfl
    simp only [map_ok, ok_bind, htype]
    cases h.entryType d with
    | error e => rfl
    | ok et =>
      simp only [ok_bind]
      split
      · simp only [pure, Except.pure, map_ok, mapResource_setResource]
        split <;> rfl
      · rfl

theorem removeSource_dropValues (fuel : Nat) (h : Hub) (r dest : ResRef) :
    resSetSource P fuel (h.mapResource r .dropValues) dest none
      = (fun p => (p.1.mapResource r .dropValues, p.2)) <$> resSetSource P fuel h dest none := by
  unfold resSetSource
  rw [getResource_mapResource]
  cases hd : h.getResource dest with
  | error e => rfl
  | ok d =>
    have hsrc : (if dest = r then d.dropValues else d).srcPtr = d.srcPtr := by split <;> rfl
    simp only [map_ok, ok_bind, hsrc]
    split
    · rfl
    · rw [unlinkSource_dropValues]
      cases unlinkSource h dest with
      | error e => rfl
      | ok h₁ =>
        simp only [map_ok, ok_bind, clearUnits_dropValues]
        cases clearUnits P h₁ dest <;> rfl

theorem dropDestinations_dropValues (fuel : Nat) (h : Hub) (r : ResRef) :
    dropDestinations P fuel (h.mapResource r .dropValues) r
      = (·.mapResource r .dropValues) <$> dropDestinations P fuel h r := by
  induction fuel generalizing h with
  | zero => rfl
  | succ fuel ih =>
    unfold dropDestinations
    rw [getResource_mapResource]
    cases hx : h.getResource r with
    | error e => rfl
    | ok x =>
      have hdest : x.dropValues.destList = x.destList := rfl
      simp only [map_ok, ok_bind, if_true, hdest]
      cases x.destList with
      | nil => rfl
      | cons dest rest =>
        dsimp only
        rw [removeSource_dropValues]
        cases resSetSource P fuel h dest none with
        | error e => rfl
        | ok p => exact ih p.1

/-- The last settings a resource loses before it is freed. -/
def Resource.dropSettings (x : Resource) : Resource :=
  { x with overrideValue := none, defaultValue := none, jsonExample := none }

theorem dropHandlers_mapResource (l : List HandlerRef) (h : Hub) (r : ResRef)
    (g : Resource → Resource) :
    l.foldl (fun h p => h.setHandler p none) (h.mapResource r g)
      = (l.foldl (fun h p => h.setHandler p none) h).mapResource r g := by
  induction l generalizing h with
  | nil => rfl
  | cons p l ih => exact ih (h.setHandler p none)

theorem freeResource_mapResource (h : Hub) (r : ResRef) (g : Resource → Resource) :
    (h.mapResource r g).freeResource r = h.freeResource r := by
  simp [Hub.freeResource, Hub.mapResource]

/-! ### Paths depend on nothing but the entries -/

section Paths

variable (hent : h'.entries = h.entries)

include hent

theorem getEntry_congr (e : EntryRef) : h'.getEntry e = h.getEntry e := by
  unfold Hub.getEntry
  rw [hent]

theorem search_congr (name : CString) (l : List EntryRef) :
    resTreeFindChild.search h' name l = resTreeFindChild.search h name l := by
  induction l with
  | nil => rfl
  | cons c rest ih =>
    unfold resTreeFindChild.search
    rw [getEntry_congr hent, ih]

theorem resTreeFindChild_congr (ns : EntryRef) (name : CString) :
    resTreeFindChild h' ns name = resTreeFindChild h ns name := by
  unfold resTreeFindChild
  rw [getEntry_congr hent]
  simp only [search_congr hent]

theorem getPath_go_congr (base : EntryRef) (fuel : Nat) (e : EntryRef) :
    resTreeGetPath.go h' base fuel e = resTreeGetPath.go h base fuel e := by
  induction fuel generalizing e with
  | zero => rfl
  | succ fuel ih =>
    unfold resTreeGetPath.go
    rw [getEntry_congr hent]
    simp only [ih]

theorem obsPathOf_congr (e : EntryRef) : obsPathOf h' e = obsPathOf h e := by
  unfold obsPathOf obsPathOf.lookup resTreeGetPath
  rw [resTreeFindChild_congr hent]
  simp only [getPath_go_congr hent]

end Paths

/-- Freeing a resource does not depend on its values. -/
theorem releaseResource_mapResource (h : Hub) (r : ResRef) {g : Resource → Resource}
    (hg : ∀ x, (g x).entryRef = x.entryRef ∧ (g x).cls = x.cls ∧ (g x).srcPtr = x.srcPtr ∧
      (g x).destList = x.destList ∧ (g x).pushHandlerList = x.pushHandlerList) :
    releaseResource P (h.mapResource r g) r = releaseResource P h r := by
  unfold releaseResource
  rw [getResource_mapResource]
  cases hx : h.getResource r with
  | error e => rfl
  | ok x =>
    obtain ⟨hentry, hcls, hsrc, hdest, hhandlers⟩ := hg x
    simp only [map_ok, ok_bind, if_true, hcls, hsrc, hdest, hhandlers]
    split
    · rfl
    · have hfree : ∀ h₁ : Hub,
          ((x.pushHandlerList.foldl (fun h p => h.setHandler p none)
            (h₁.mapResource r g)).freeResource r)
          = (x.pushHandlerList.foldl (fun h p => h.setHandler p none) h₁).freeResource r := by
        intro h₁
        rw [dropHandlers_mapResource, freeResource_mapResource]
      cases hc : x.cls with
      | observation o =>
        have hdestruct : destructObs P (h.mapResource r g) r (g x) o
            = (destructObs P h r x o).mapResource r g := by
          have hpath : obsPathOf (h.mapResource r g) (g x).entryRef = obsPathOf h x.entryRef := by
            have hent : (h.mapResource r g).entries = h.entries := rfl
            rw [hentry, obsPathOf_congr hent]
          have hdelete : deleteBackup P (obsContext (h.mapResource r g) (g x))
              = deleteBackup P (obsContext h x) := by
            unfold deleteBackup getBackupFilePath obsContext
            rw [hpath]
            rfl
          unfold destructObs
          rw [hdelete]
          dsimp only
          split <;> rfl
        dsimp only
        rw [hdestruct, hfree]
      | placeholder => exact congrArg Except.ok (hfree h)
      | ioPoint => exact congrArg Except.ok (hfree h)

/-- The routes of a resource are taken away, to its destinations and from its source. -/
def unroute (P : Platform) (fuel : Nat) (h : Hub) (r : ResRef) : Except Fault Hub := do
  let p ← resSetSource P fuel h r none
  dropDestinations P fuel p.1 r

/-- The values may as well be lost when the resource is freed. -/
theorem resDeleteObservation_eq (fuel : Nat) (h : Hub) (r : ResRef)
    (hx : h.resources r = some x) :
    resDeleteObservation P fuel h r = (do
      let h ← unroute P fuel h r
      let _ ← h.getResource r
      releaseResource P h r) := by
  have hdrop : h.modifyResource r (fun x => { x with currentValue := none, pushedValue := none })
      = .ok (h.mapResource r .dropValues) := by
    refine modifyResource_ok.mpr ⟨x, hx, ?_⟩
    simp [Hub.mapResource, Hub.setResource, hx, Resource.dropValues]
  unfold resDeleteObservation dropSettings unroute
  rw [hdrop]
  simp only [ok_bind, removeSource_dropValues]
  cases resSetSource P fuel h r none with
  | error e => rfl
  | ok p =>
    simp only [map_ok, ok_bind, dropDestinations_dropValues]
    cases dropDestinations P fuel p.1 r with
    | error e => rfl
    | ok h₂ =>
      simp only [map_ok, ok_bind]
      unfold Hub.modifyResource
      rw [getResource_mapResource]
      cases hx₂ : h₂.getResource r with
      | error e => rfl
      | ok x₂ =>
        simp only [map_ok, ok_bind, if_true, pure, Except.pure]
        have hmap : (h₂.mapResource r .dropValues).setResource r
            { x₂.dropValues with overrideValue := none, defaultValue := none, jsonExample := none }
            = h₂.mapResource r fun x => x.dropValues.dropSettings := by
          have hr : h₂.resources r = some x₂ := getResource_ok.mp hx₂
          simp [Hub.mapResource, Hub.setResource, hr, Resource.dropSettings]
        rw [hmap]
        exact releaseResource_mapResource h₂ r fun x => ⟨rfl, rfl, rfl, rfl, rfl⟩

end MangOH.DataHub
