import MangOH.DataHub.RejectedPaths

/-! What an `admin_SetSource` that is refused has changed. -/
namespace MangOH.DataHub

open Outcome

variable {P : Platform} {h h₁ h₂ h' : Hub} {base c e q : EntryRef} {d r s : ResRef}
  {path destPath srcPath : CString} {names : List CString} {fuel : Nat} {x : Resource}
  {entry : Entry}

/-! ### Entries come and become resources -/

def Hub.IsResource (h : Hub) (e : EntryRef) (r : ResRef) : Prop :=
  ∃ entry, h.entries e = some entry ∧ entry.resourcePtr = some r

/-- Entries stay, with their resources, but a namespace can become a resource. -/
def Grown (h h' : Hub) : Prop :=
  ∀ q entry, h.entries q = some entry → ∃ entry', h'.entries q = some entry' ∧
    (entry'.type = entry.type ∧ entry'.resourcePtr = entry.resourcePtr ∨
      entry.type = .nameSpace ∧ entry'.type ≠ .nameSpace)

/-- An entry is new, or a namespace has become a resource. -/
def Marked (h h' : Hub) : Prop :=
  ∃ q entry', h'.entries q = some entry' ∧
    (h.entries q = none ∨ ∃ entry, h.entries q = some entry ∧ entry.type = .nameSpace ∧
      entry'.type ≠ .nameSpace)

theorem Grown.refl (h : Hub) : Grown h h := fun _ entry he => ⟨entry, he, .inl ⟨rfl, rfl⟩⟩

theorem Grown.trans (hg : Grown h h₁) (hg' : Grown h₁ h₂) : Grown h h₂ := by
  intro q entry he
  obtain ⟨entry₁, he₁, hkeep⟩ := hg q entry he
  obtain ⟨entry₂, he₂, hkeep'⟩ := hg' q entry₁ he₁
  refine ⟨entry₂, he₂, ?_⟩
  rcases hkeep with ⟨htype, hptr⟩ | ⟨hns, hres⟩
  · rcases hkeep' with ⟨htype', hptr'⟩ | ⟨hns', hres'⟩
    · exact .inl ⟨htype'.trans htype, hptr'.trans hptr⟩
    · exact .inr ⟨htype.symm.trans hns', hres'⟩
  · rcases hkeep' with ⟨htype', -⟩ | ⟨hns', -⟩
    · exact .inr ⟨hns, htype' ▸ hres⟩
    · exact absurd hns' hres

theorem Marked.grown (hm : Marked h h₁) (hg : Grown h₁ h₂) : Marked h h₂ := by
  obtain ⟨q, entry₁, he₁, hmark⟩ := hm
  obtain ⟨entry₂, he₂, hkeep⟩ := hg q entry₁ he₁
  refine ⟨q, entry₂, he₂, hmark.imp_right ?_⟩
  rintro ⟨entry, he, hns, hres⟩
  refine ⟨entry, he, hns, ?_⟩
  rcases hkeep with ⟨htype, -⟩ | ⟨hns', -⟩
  · exact htype ▸ hres
  · exact absurd hns' hres

theorem Marked.grown' (hg : Grown h h₁) (hm : Marked h₁ h₂) : Marked h h₂ := by
  obtain ⟨q, entry₂, he₂, hmark⟩ := hm
  refine ⟨q, entry₂, he₂, ?_⟩
  cases he : h.entries q with
  | none => exact .inl rfl
  | some entry =>
    obtain ⟨entry₁, he₁, hkeep⟩ := hg q entry he
    rcases hmark with hnone | ⟨entry₁', he₁', hns, hres⟩
    · cases hnone.symm.trans he₁
    · cases he₁.symm.trans he₁'
      rcases hkeep with ⟨htype, -⟩ | ⟨-, hres'⟩
      · exact .inr ⟨entry, rfl, htype ▸ hns, hres⟩
      · exact absurd hns hres'

theorem Grown.isResource (hwf : WellFormed h) (hg : Grown h h') (hr : h.IsResource e r) :
    h'.IsResource e r := by
  obtain ⟨entry, he, hptr⟩ := hr
  obtain ⟨entry', he', hkeep⟩ := hg e entry he
  rcases hkeep with ⟨-, hptr'⟩ | ⟨hns, -⟩
  · exact ⟨entry', he', hptr'.trans hptr⟩
  · rw [(hwf.nameSpace e entry he).mp hns] at hptr
    cases hptr

theorem Marked.ne (hm : Marked h h') : h'.entries ≠ h.entries := by
  obtain ⟨q, entry', he', hmark⟩ := hm
  intro heq
  rw [heq] at he'
  rcases hmark with hnone | ⟨entry, he, hns, hres⟩
  · cases hnone.symm.trans he'
  · cases he.symm.trans he'
    exact hres hns

def Bounded (h : Hub) : Prop := ∀ q entry, h.entries q = some entry → q < h.nextEntry

theorem grown_addChild (hb : Bounded h) (parent : EntryRef) (name : CString) :
    Returns (addChild P h parent name) fun p => Bounded p.1 ∧ Grown h p.1 ∧
      p.1.resources = h.resources ∧ p.1.nextRes = h.nextRes := by
  refine Returns.of_ok fun p hp => ?_
  obtain ⟨par, hpar, -, hh⟩ := (addChild_frame h parent name).result hp
  rw [hh]
  refine ⟨fun q entry he => ?_, fun q entry he => ?_, rfl, rfl⟩
  · by_cases hqn : q = h.nextEntry
    · exact hqn ▸ Nat.lt_succ_self _
    by_cases hqp : q = parent
    · exact Nat.lt_succ_of_lt (hqp ▸ hb parent par hpar)
    · exact Nat.lt_succ_of_lt (hb q entry (by simpa [hqn, hqp] using he))
  · have hqn : q ≠ h.nextEntry := Nat.ne_of_lt (hb q entry he)
    by_cases hqp : q = parent
    · subst hqp
      cases hpar.symm.trans he
      exact ⟨{ par with refCount := par.refCount + 1
                        childList := par.childList ++ [h.nextEntry] },
        by simp [hqn], .inl ⟨rfl, rfl⟩⟩
    · exact ⟨entry, by simp [hqn, hqp, he], .inl ⟨rfl, rfl⟩⟩

theorem grown_walk (hb : Bounded h) (names : List CString) (e : EntryRef) :
    Returns (walk P true names h e) fun p => Bounded p.1 ∧ Grown h p.1 ∧
      p.1.resources = h.resources ∧ p.1.nextRes = h.nextRes := by
  induction names generalizing h e with
  | nil => exact ⟨hb, .refl h, rfl, rfl⟩
  | cons name names ih =>
    unfold walk
    split
    · exact ⟨hb, .refl h, rfl, rfl⟩
    · refine Returns.skip fun found => ?_
      cases found with
      | some c => exact ih hb c
      | none =>
        refine (grown_addChild hb e name).bind ?_
        rintro ⟨h₁, c⟩ ⟨hb₁, hg₁, hres₁, hnext₁⟩
        refine (ih hb₁ c).mono fun p hp => ?_
        obtain ⟨hb₂, hg₂, hres₂, hnext₂⟩ := hp
        exact ⟨hb₂, hg₁.trans hg₂, hres₂.trans hres₁, hnext₂.trans hnext₁⟩

theorem grown_goToEntry (hb : Bounded h) (base : EntryRef) (path : CString) :
    Returns (goToEntry P h base path true) fun p => Bounded p.1 ∧ Grown h p.1 ∧
      p.1.resources = h.resources ∧ p.1.nextRes = h.nextRes := by
  unfold goToEntry
  split
  · exact ⟨hb, .refl h, rfl, rfl⟩
  · exact grown_walk hb _ base

/-! ### `resTree_GetResource` -/

def ResourceAt (P : Platform) (h : Hub) (path : CString) (r : ResRef) : Prop :=
  ∃ e, resTreeFindEntry P h rootPtr path = .ok (some e) ∧ h.IsResource e r

/-- How the function ends. -/
inductive GetsResource (P : Platform) (h : Hub) (path : CString) : Hub × Option EntryRef → Prop
  /-- The resource is there. -/
  | there {e : EntryRef} {r : ResRef} (hgood : Acceptable P path)
      (hfind : resTreeFindEntry P h rootPtr path = .ok (some e)) (hres : h.IsResource e r) :
      GetsResource P h path (h, some e)
  /-- It is a Placeholder that has just been created. -/
  | created {h' : Hub} {e : EntryRef} (hgood : Acceptable P path)
      (hres : h'.IsResource e h.nextRes)
      (hresources : h'.resources =
        Function.update h.resources h.nextRes (some (resCreatePlaceholder e)))
      (hmarked : Marked h h') (hgrown : Grown h h') : GetsResource P h path (h', some e)
  /-- The path is malformed, and nothing is created on the way to where it is. -/
  | refused (hbad : ¬ Acceptable P path) (hthere : PathThere P h rootPtr path) :
      GetsResource P h path (h, none)
  /-- Entries are created before. -/
  | refusedLate {h' : Hub} (hbad : ¬ Acceptable P path)
      (hthere : ¬ PathThere P h rootPtr path) (hmarked : Marked h h') (hgrown : Grown h h') :
      GetsResource P h path (h', none)

theorem marked_of_new (hnew : h.entries q = none) (hsome : (h'.entries q).isSome) :
    Marked h h' := by
  obtain ⟨entry, he⟩ := Option.isSome_iff_exists.mp hsome
  exact ⟨q, entry, he, .inl hnew⟩

/-- The replacement of a namespace by a Placeholder. -/
theorem replaceNameSpace (he : h.entries e = some entry) (hns : entry.resourcePtr = none)
    (htype : entry.type = .nameSpace) :
    Sat (fun _ => True) (replaceResource P h e (resCreatePlaceholder e) .placeholder) fun p =>
      p.1.IsResource e h.nextRes ∧ p.1.resources =
        Function.update h.resources h.nextRes (some (resCreatePlaceholder e)) ∧
      Grown h p.1 ∧ Marked h p.1 := by
  have hok : ∃ p, replaceResource P h e (resCreatePlaceholder e) .placeholder = .ok p := by
    unfold replaceResource replaceResource.dispose
    simp only [getEntry_ok.mpr he, ok_bind, hns]
    exact ⟨_, bind_eq_ok.mpr ⟨_, rfl,
      bind_eq_ok.mpr ⟨_, modifyEntry_ok.mpr ⟨entry, he, rfl⟩, rfl⟩⟩⟩
  obtain ⟨p, hp⟩ := hok
  have hlt : ∀ entry old, h.entries e = some entry → entry.resourcePtr = some old →
      old ≠ h.nextRes := by
    intro entry' old he' hold
    cases he.symm.trans he'
    cases hns.symm.trans hold
  obtain ⟨-, entry', he', hreplaced⟩ := (replaceResource_frame h e _ _ hlt).result hp
  cases he.symm.trans he'
  have hself : p.1.entries e =
      some { entry with resourcePtr := some h.nextRes, type := .placeholder } := by
    rw [hreplaced.entries, Function.update_self]
  rw [hp]
  refine ⟨⟨_, hself, rfl⟩, (hreplaced.attach hns).1, fun q entry' hq => ?_,
    ⟨e, _, hself, .inr ⟨entry, he, htype, by simp⟩⟩⟩
  by_cases hqe : q = e
  · subst hqe
    cases he.symm.trans hq
    exact ⟨_, hself, .inr ⟨htype, by simp⟩⟩
  · exact ⟨entry', by simp [hreplaced.entries, hqe, hq], .inl ⟨rfl, rfl⟩⟩

theorem getResource_creates (hwf : WellFormed h) (hd : h.directory.Ok (LegalName P))
    (hroot : h.directory rootPtr ≠ none) (path : CString) :
    Sat (fun _ => True) (resTreeGetResource P h rootPtr path) (GetsResource P h path) := by
  have hnew : h.entries h.nextEntry = none := by
    cases hn : h.entries h.nextEntry with
    | none => rfl
    | some entry => exact absurd (hwf.entry_lt _ _ hn) (Nat.lt_irrefl _)
  obtain ⟨⟨h₁, found⟩, hgo, hcreates, hnone⟩ := getEntry_creates hd hroot path
  obtain ⟨-, hgrown, hres, hnext⟩ := (grown_goToEntry (P := P) hwf.entry_lt rootPtr path).result hgo
  dsimp only at hcreates hnone hgrown hres hnext
  unfold resTreeGetResource
  rw [hgo, ok_bind]
  cases found with
  | none =>
    have hbad := hnone.mp rfl
    by_cases hthere : PathThere P h rootPtr path
    · obtain ⟨found, hget, -⟩ := getEntry_there hwf hd hroot hthere
      cases hgo.symm.trans hget
      exact .refused hbad hthere
    · rcases hcreates with rfl | ⟨hmade, -⟩
      · exact absurd (pathThere_of_get hd hroot hgo rfl) hthere
      · exact .refusedLate hbad hthere (marked_of_new hnew hmade) hgrown
  | some e =>
    have hgood : Acceptable P path := by
      by_contra hbad
      cases hnone.mpr hbad
    obtain ⟨entry, he⟩ : ∃ entry, h₁.entries e = some entry := by
      rcases hcreates with rfl | ⟨-, hfresh⟩
      · obtain ⟨found, hget, hleads⟩ :=
          getEntry_there hwf hd hroot (pathThere_of_get hd hroot hgo rfl)
        cases hgo.symm.trans hget
        exact entry_of_node (((hleads e).mp rfl).exists_node hroot)
      · obtain ⟨entry, he, -⟩ := hfresh e rfl
        exact ⟨entry, he⟩
    have hwf₁ := ((sat_goToEntry (.refl hwf) rootPtr path true).result hgo).1.wf
    dsimp only
    rw [getEntry_ok.mpr he, ok_bind]
    split
    · next hns =>
      refine (replaceNameSpace he ((hwf₁.nameSpace e entry he).mp hns) hns).bind ?_
      rintro p ⟨hptr, hresources, hgrown', hmarked⟩
      rw [hnext] at hptr hresources
      rw [hres] at hresources
      exact .created hgood hptr hresources (hmarked.grown' hgrown) (hgrown.trans hgrown')
    · next hns =>
      have hptr : entry.resourcePtr ≠ none :=
        fun hnone => hns ((hwf₁.nameSpace e entry he).mpr hnone)
      obtain ⟨r, hr⟩ := Option.ne_none_iff_exists'.mp hptr
      rcases hcreates with rfl | ⟨-, hfresh⟩
      · have hsame := goToEntry_there hd hroot (pathThere_of_get hd hroot hgo rfl)
        refine .there hgood ?_ ⟨entry, he, hr⟩
        rw [resTreeFindEntry, ← hsame, resTreeGetEntry, hgo]
        rfl
      · obtain ⟨entry', he', htype, -⟩ := hfresh e rfl
        cases he.symm.trans he'
        exact absurd htype hns

theorem walk_found (hwalk : walk P false names h e = .ok (h', some c)) :
    walk P true names h e = .ok (h, some c) := by
  induction names generalizing e with
  | nil =>
    cases hwalk
    rfl
  | cons name names ih =>
    unfold walk at hwalk ⊢
    split at hwalk
    · cases hwalk
    · next hgood =>
      rw [if_neg hgood]
      obtain ⟨found, hfind, hwalk⟩ := bind_eq_ok.mp hwalk
      rw [hfind, ok_bind]
      cases found with
      | some child => exact ih hwalk
      | none => cases hwalk

/-- A resource that is found stays as it is. -/
theorem getResource_found (hwf : WellFormed h)
    (hfind : resTreeFindEntry P h rootPtr path = .ok (some e)) (hr : h.IsResource e r) :
    resTreeGetResource P h rootPtr path = .ok (h, some e) := by
  obtain ⟨entry, he, hptr⟩ := hr
  have htype : entry.type ≠ .nameSpace := by
    intro hns
    rw [(hwf.nameSpace e entry he).mp hns] at hptr
    cases hptr
  obtain ⟨⟨h₁, found⟩, hgo, heq⟩ := bind_eq_ok.mp hfind
  cases heq
  have hgo' : goToEntry P h rootPtr path true = .ok (h, some e) := by
    unfold goToEntry at hgo ⊢
    split at hgo
    · cases hgo
    · next hlegal =>
      rw [if_neg hlegal]
      exact walk_found hgo
  simp only [resTreeGetResource, hgo', ok_bind, getEntry_ok.mpr he, if_neg htype]
  rfl

/-! ### The search for a loop -/

theorem anyM_eq_true {α : Type} {f : α → Except Fault Bool} {l : List α}
    (hl : l.anyM f = .ok true) : ∃ a ∈ l, f a = .ok true := by
  induction l with
  | nil => cases hl
  | cons a l ih =>
    rw [List.anyM_cons] at hl
    obtain ⟨found, hfound, hl⟩ := bind_eq_ok.mp hl
    cases found with
    | true => exact ⟨a, List.mem_cons_self, hfound⟩
    | false =>
      obtain ⟨a', ha', htrue⟩ := ih hl
      exact ⟨a', List.mem_cons_of_mem _ ha', htrue⟩

/-- A search that succeeds starts from a source and ends at a destination. -/
theorem ends_of_canGetThere {there here : ResRef}
    (hfound : canGetThereFromHere h there fuel here = .ok true) :
    h.links.dests here ≠ [] ∧ ∃ y, there ∈ h.links.dests y := by
  induction fuel generalizing here with
  | zero => cases hfound
  | succ fuel ih =>
    unfold canGetThereFromHere at hfound
    obtain ⟨x, hx, hany⟩ := bind_eq_ok.mp hfound
    have hdests := dests_of_resource (getResource_ok.mp hx)
    obtain ⟨dest, hdest, hstep⟩ := anyM_eq_true hany
    refine ⟨by simp [hdests, List.ne_nil_of_mem hdest], ?_⟩
    split at hstep
    · next heq => exact ⟨here, by rw [hdests, ← heq]; exact hdest⟩
    · exact (ih hstep).2

/-- The new route would close a loop, which is found out when the route that is there has been
cut. -/
def LoopFound (h : Hub) (d s : ResRef) (fuel : Nat) : Prop :=
  ∃ h₁, unlinkSource h d = .ok h₁ ∧ canGetThereFromHere h₁ s fuel d = .ok true

/-- A Placeholder that has just been created is in no loop. -/
theorem LoopFound.not_new (hwf : WellFormed h) (hloop : LoopFound h d s fuel) (e : EntryRef) :
    h.resources d ≠ some (resCreatePlaceholder e) ∧
      h.resources s ≠ some (resCreatePlaceholder e) := by
  obtain ⟨h₁, hunlink, hfound⟩ := hloop
  have hlinks := (links_unlinkSource h d).result hunlink
  obtain ⟨hdests, y, hy⟩ := ends_of_canGetThere hfound
  rw [hlinks] at hdests hy
  constructor
  · intro hd
    have hsrc : h.links.src d ≠ some d := by
      rw [src_of_resource hd]
      simp [resCreatePlaceholder, resConstruct]
    rw [Links.dests_unlink_other _ hsrc, dests_of_resource hd] at hdests
    exact hdests rfl
  · intro hs
    have hroute := (hwf.routes.unlink d).mem_iff.mp hy
    rw [Links.Route, Links.src_unlink, src_of_resource hs] at hroute
    split at hroute
    · cases hroute
    · cases hroute

/-! ### `res_SetSource` -/

theorem canGetThere_routing (h : Hub) (d s : ResRef) (fuel : Nat) :
    canGetThereFromHere (h.emit (.routing d s)) s fuel d = canGetThereFromHere h s fuel d :=
  canGetThereFromHere_congr (by rfl) ..

theorem resSetSource_duplicate {result : LeResult}
    (hset : resSetSource P fuel h d (some s) = .ok (h', result)) (hresult : result ≠ .ok) :
    result = .duplicate ∧ LoopFound h d s fuel ∧ ∀ x, h.resources d = some x →
      x.srcPtr ≠ some s ∧
        (x.srcPtr = none → h'.entries = h.entries ∧ h'.resources = h.resources) := by
  unfold resSetSource at hset
  obtain ⟨x, hx, hset⟩ := bind_eq_ok.mp hset
  split at hset
  · cases hset
    exact absurd rfl hresult
  · next hne =>
    obtain ⟨h₁, hunlink, hset⟩ := bind_eq_ok.mp hset
    obtain ⟨found, hfound, hset⟩ := bind_eq_ok.mp hset
    rw [canGetThere_routing] at hfound
    split at hset
    · next htrue =>
      cases hset
      refine ⟨rfl, ⟨h₁, hunlink, htrue ▸ hfound⟩, fun x' hx' => ?_⟩
      cases (getResource_ok.mp hx).symm.trans hx'
      refine ⟨hne, fun hnone => ?_⟩
      have hsame : h₁ = h := by
        rw [unlinkSource, hx, ok_bind, hnone] at hunlink
        cases hunlink
        rfl
      simp [hnone, hsame, Hub.emit]
    · obtain ⟨_, -, hset⟩ := bind_eq_ok.mp hset
      obtain ⟨_, -, hset⟩ := bind_eq_ok.mp hset
      obtain ⟨_, -, hset⟩ := bind_eq_ok.mp hset
      obtain ⟨_, -, hset⟩ := bind_eq_ok.mp hset
      cases hset
      exact absurd rfl hresult

/-- The route that is there is gone when the loop is found. -/
theorem resSetSource_cut {old : ResRef} (hx : h.resources d = some x)
    (hsrc : x.srcPtr = some old) (hne : old ≠ s) (hloop : LoopFound h d s fuel) :
    ∃ h', resSetSource P fuel h d (some s) = .ok (h', .duplicate) ∧
      h'.resources ≠ h.resources := by
  obtain ⟨h₁, hunlink, hfound⟩ := hloop
  have hneq : x.srcPtr ≠ some s := by
    rw [hsrc]
    exact fun heq => hne (Option.some.inj heq)
  refine ⟨(h₁.emit (.routing d s)).configured d .noSource, ?_, fun hsame => ?_⟩
  · unfold resSetSource
    rw [getResource_ok.mpr hx, ok_bind, if_neg hneq, hunlink, ok_bind]
    dsimp only
    rw [canGetThere_routing, hfound, ok_bind, hsrc]
    rfl
  · obtain ⟨x₁, hx₁, hnone⟩ := srcPtr_unlinkSource hunlink
    replace hsame : h₁.resources = h.resources := hsame
    rw [hsame, hx] at hx₁
    cases hx₁
    cases hnone.symm.trans hsrc

theorem resTreeSetSource_eq {destEntry srcEntry : EntryRef} (hwf : WellFormed h)
    (hd : h.IsResource destEntry d) (hs : h.IsResource srcEntry s) :
    resTreeSetSource P fuel h destEntry (some srcEntry) = resSetSource P fuel h d (some s) := by
  obtain ⟨de, hde, hdptr⟩ := hd
  obtain ⟨se, hse, hsptr⟩ := hs
  have htype : de.type ≠ .nameSpace := by
    intro hns
    rw [(hwf.nameSpace destEntry de hde).mp hns] at hdptr
    cases hdptr
  simp only [resTreeSetSource, attachedTo, getEntry_ok.mpr hde, getEntry_ok.mpr hse, ok_bind,
    if_neg htype, hdptr, hsptr]
  rfl

/-! ### `admin_SetSource` -/

/-- A call that is refused has changed no entry and no resource. -/
def RefusalKeeps (h : Hub) (call : Except Fault (Hub × LeResult)) : Prop :=
  ∀ h' result, call = .ok (h', result) → result = .duplicate ∨ result = .badParameter →
    h'.entries = h.entries ∧ h'.resources = h.resources

/-- What the two functions do before they refuse the call changes nothing. -/
structure RefusableSource (P : Platform) (h : Hub) (destPath srcPath : CString) : Prop where
  /-- The destination's path is good, or nothing is created on the way to where it is bad. -/
  dest : ¬ Acceptable P destPath → PathThere P h rootPtr destPath
  /-- The source's path is good, or the destination is a resource and nothing is created on the way
  to where it is bad. -/
  source : Acceptable P destPath → ¬ Acceptable P srcPath →
    (∃ d, ResourceAt P h destPath d) ∧ PathThere P h rootPtr srcPath
  /-- The destination has no other source that is cut before a loop is found. -/
  loop : ∀ d s x old fuel, ResourceAt P h destPath d → ResourceAt P h srcPath s →
    h.resources d = some x → x.srcPtr = some old → old ≠ s → ¬ LoopFound h d s fuel

/-- A call whose source is refused shows what the first lookup leaves. -/
theorem reachable_getResource (hr : Reachable P h)
    (hget : resTreeGetResource P h rootPtr path = .ok (h₁, some e)) : Reachable P h₁ := by
  refine .step 0 (.adminSetSource path (ascii ".")) hr ?_
  have hdot : resTreeGetResource P h₁ rootPtr (ascii ".") = .ok (h₁, none) := by
    have hillegal : (ascii ".").any isIllegal = true := by decide
    rw [resTreeGetResource, goToEntry, if_pos hillegal]
    rfl
  have hset : adminSetSource P 0 h path (ascii ".") = .ok (h₁, .badParameter) := by
    simp only [adminSetSource, hget, ok_bind, hdot]
    rfl
  simp only [step, hset]
  rfl

theorem ResourceAt.unique (hat : ResourceAt P h path r) (hat' : ResourceAt P h path d) : r = d := by
  obtain ⟨e, hfind, entry, he, hr⟩ := hat
  obtain ⟨e', hfind', entry', he', hd⟩ := hat'
  cases hfind.symm.trans hfind'
  cases he.symm.trans he'
  exact Option.some.inj (hr.symm.trans hd)

theorem ResourceAt.getResource (hwf : WellFormed h) (hat : ResourceAt P h path r) :
    ∃ e, resTreeGetResource P h rootPtr path = .ok (h, some e) ∧ h.IsResource e r := by
  obtain ⟨e, hfind, hr⟩ := hat
  exact ⟨e, getResource_found hwf hfind hr, hr⟩

theorem adminSetSource_refused
    (hdest : resTreeGetResource P h rootPtr destPath = .ok (h₁, some e))
    (hsrc : resTreeGetResource P h₁ rootPtr srcPath = .ok (h₂, none)) (fuel : Nat) :
    adminSetSource P fuel h destPath srcPath = .ok (h₂, .badParameter) := by
  simp only [adminSetSource, hdest, ok_bind, hsrc]
  rfl

/-- Both paths lead to resources. -/
theorem adminSetSource_eq (hwf : WellFormed h₂)
    (hdest : resTreeGetResource P h rootPtr destPath = .ok (h₁, some e))
    (hsrc : resTreeGetResource P h₁ rootPtr srcPath = .ok (h₂, some q))
    (hd : h₂.IsResource e d) (hs : h₂.IsResource q s) (fuel : Nat) :
    adminSetSource P fuel h destPath srcPath = resSetSource P fuel h₂ d (some s) := by
  simp only [adminSetSource, hdest, ok_bind, hsrc]
  exact resTreeSetSource_eq hwf hd hs

theorem ne_ok_of_refused {result : LeResult}
    (hrefused : result = .duplicate ∨ result = .badParameter) : result ≠ .ok := by
  rcases hrefused with rfl | rfl <;> simp

/-- A resource that has just been created is in no loop, and so the call is not refused. -/
theorem keeps_of_new (hwf : WellFormed h₂) (c : EntryRef)
    (hcall : ∀ fuel, adminSetSource P fuel h destPath srcPath = resSetSource P fuel h₂ d (some s))
    (hnew : h₂.resources d = some (resCreatePlaceholder c) ∨
      h₂.resources s = some (resCreatePlaceholder c)) :
    ∀ fuel, RefusalKeeps h (adminSetSource P fuel h destPath srcPath) := by
  intro fuel h' result hok hrefused
  rw [hcall] at hok
  obtain ⟨-, hloop, -⟩ := resSetSource_duplicate hok (ne_ok_of_refused hrefused)
  obtain ⟨hd, hs⟩ := hloop.not_new hwf c
  rcases hnew with hnew | hnew
  · exact absurd hnew hd
  · exact absurd hnew hs

/-! ### The three ways to find the destination -/

section Destination

variable (hr : Reachable P h) (srcPath)
include hr

/-- The destination has just been created. -/
theorem keeps_created (hgood : Acceptable P destPath)
    (hdest : resTreeGetResource P h rootPtr destPath = .ok (h₁, some e))
    (hres : h₁.IsResource e h.nextRes)
    (hresources : h₁.resources =
      Function.update h.resources h.nextRes (some (resCreatePlaceholder e)))
    (hmarked : Marked h h₁) :
    (∀ fuel, RefusalKeeps h (adminSetSource P fuel h destPath srcPath)) ↔
      RefusableSource P h destPath srcPath := by
  have hr₁ := reachable_getResource hr hdest
  have hwf₁ := reachable_wellFormed hr₁
  have hnot : ∀ d, ¬ ResourceAt P h destPath d := by
    intro d hat
    obtain ⟨e', hfound, -⟩ := hat.getResource (reachable_wellFormed hr)
    cases hdest.symm.trans hfound
    exact hmarked.ne rfl
  have hnew : h₁.resources h.nextRes = some (resCreatePlaceholder e) := by
    rw [hresources, Function.update_self]
  obtain ⟨⟨h₂, found⟩, hsrc, hgets⟩ := (getResource_creates hwf₁ (reachable_directory hr₁)
    (reachable_searchable hr₁).exists_root srcPath).exists_ok
  have hfalse : ¬ Acceptable P srcPath → found = none → Marked h h₂ →
      ((∀ fuel, RefusalKeeps h (adminSetSource P fuel h destPath srcPath)) ↔
        RefusableSource P h destPath srcPath) := by
    rintro hbad rfl hmarked₂
    refine iff_of_false (fun hkeeps => ?_) fun hok => ?_
    · have hcall := adminSetSource_refused hdest hsrc 0
      exact hmarked₂.ne (hkeeps 0 _ _ hcall (.inr rfl)).1
    · obtain ⟨⟨d, hat⟩, -⟩ := hok.source hgood hbad
      exact hnot d hat
  have htrue : Acceptable P srcPath →
      (∀ fuel, RefusalKeeps h (adminSetSource P fuel h destPath srcPath)) →
      ((∀ fuel, RefusalKeeps h (adminSetSource P fuel h destPath srcPath)) ↔
        RefusableSource P h destPath srcPath) := by
    intro hgood' hkeeps
    refine iff_of_true hkeeps ⟨fun hbad => absurd hgood hbad, fun _ hbad => absurd hgood' hbad, ?_⟩
    exact fun d s x old fuel hat => absurd hat (hnot d)
  cases hgets with
  | there hgood' hfind hs =>
    have hcall := adminSetSource_eq hwf₁ hdest hsrc hres hs
    exact htrue hgood' (keeps_of_new hwf₁ e hcall (.inl hnew))
  | created hgood' hs hresources₂ hmarked₂ hgrown₂ =>
    have hwf₂ := reachable_wellFormed (reachable_getResource hr₁ hsrc)
    have hlt := Nat.ne_of_lt (hwf₁.res_lt _ _ hnew)
    have hcall := adminSetSource_eq hwf₂ hdest hsrc (hgrown₂.isResource hwf₁ hres) hs
    refine htrue hgood' (keeps_of_new hwf₂ e hcall (.inl ?_))
    rw [hresources₂, Function.update_of_ne hlt, hnew]
  | refused hbad hthere => exact hfalse hbad rfl hmarked
  | refusedLate hbad hthere hmarked₂ hgrown₂ => exact hfalse hbad rfl (hmarked.grown hgrown₂)

/-- The destination is a resource. -/
theorem keeps_there (hgood : Acceptable P destPath)
    (hdest : resTreeGetResource P h rootPtr destPath = .ok (h, some e))
    (hfind : resTreeFindEntry P h rootPtr destPath = .ok (some e)) (hres : h.IsResource e d) :
    (∀ fuel, RefusalKeeps h (adminSetSource P fuel h destPath srcPath)) ↔
      RefusableSource P h destPath srcPath := by
  have hwf := reachable_wellFormed hr
  have hat : ResourceAt P h destPath d := ⟨e, hfind, hres⟩
  obtain ⟨⟨h₂, found⟩, hsrc, hgets⟩ := (getResource_creates hwf (reachable_directory hr)
    (reachable_searchable hr).exists_root srcPath).exists_ok
  have hnot : found = none ∨ Marked h h₂ → ∀ s, ¬ ResourceAt P h srcPath s := by
    intro hor s hats
    obtain ⟨q, hfound, -⟩ := hats.getResource hwf
    cases hsrc.symm.trans hfound
    rcases hor with hnone | hmarked
    · cases hnone
    · exact hmarked.ne rfl
  cases hgets with
  | there hgood' hfind' hs =>
    have hcall := adminSetSource_eq hwf hdest hsrc hres hs
    have hats : ResourceAt P h srcPath _ := ⟨_, hfind', hs⟩
    constructor
    · intro hkeeps
      refine ⟨fun hbad => absurd hgood hbad, fun _ hbad => absurd hgood' hbad, ?_⟩
      intro d' s' x old fuel hat' hats' hx hptr hne hloop
      cases hat.unique hat'
      cases hats.unique hats'
      obtain ⟨h', hset, hcut⟩ := resSetSource_cut hx hptr hne hloop
      exact hcut (hkeeps fuel h' _ ((hcall fuel).trans hset) (.inl rfl)).2
    · intro hok fuel h' result hset hrefused
      rw [hcall] at hset
      obtain ⟨-, hloop, hkeep⟩ := resSetSource_duplicate hset (ne_ok_of_refused hrefused)
      obtain ⟨entry, he, hptr⟩ := hres
      obtain ⟨x, hx, -⟩ := hwf.resourceOf e entry d he hptr
      obtain ⟨hne, hsame⟩ := hkeep x hx
      cases hold : x.srcPtr with
      | none => exact hsame hold
      | some old =>
        refine absurd hloop (hok.loop d _ x old fuel hat hats hx hold fun heq => hne ?_)
        rw [hold, heq]
  | created hgood' hs hresources₂ hmarked₂ hgrown₂ =>
    have hwf₂ := reachable_wellFormed (reachable_getResource hr hsrc)
    have hcall := adminSetSource_eq hwf₂ hdest hsrc (hgrown₂.isResource hwf hres) hs
    have hnew := keeps_of_new hwf₂ _ hcall (.inr (by rw [hresources₂, Function.update_self]))
    refine iff_of_true hnew ⟨fun hbad => absurd hgood hbad, fun _ hbad => absurd hgood' hbad, ?_⟩
    exact fun d s x old fuel _ hats => absurd hats (hnot (.inr hmarked₂) s)
  | refused hbad hthere =>
    refine iff_of_true (fun fuel h' result hok _ => ?_)
      ⟨fun hbad => absurd hgood hbad, fun _ _ => ⟨⟨d, hat⟩, hthere⟩, ?_⟩
    · cases (adminSetSource_refused hdest hsrc fuel).symm.trans hok
      exact ⟨rfl, rfl⟩
    · exact fun d s x old fuel _ hats => absurd hats (hnot (.inl rfl) s)
  | refusedLate hbad hthere hmarked₂ hgrown₂ =>
    refine iff_of_false (fun hkeeps => ?_) fun hok => hthere (hok.source hgood hbad).2
    have hcall := adminSetSource_refused hdest hsrc 0
    exact hmarked₂.ne (hkeeps 0 _ _ hcall (.inr rfl)).1

end Destination

/-- In every state, a call that is refused changes nothing if and only if nothing is created before
a malformed path is found, and no route is cut before a loop is found. -/
theorem refusalKeeps_iff (hr : Reachable P h) (destPath srcPath : CString) :
    (∀ fuel, RefusalKeeps h (adminSetSource P fuel h destPath srcPath)) ↔
      RefusableSource P h destPath srcPath := by
  have hwf := reachable_wellFormed hr
  obtain ⟨⟨h₁, found⟩, hdest, hgets⟩ := (getResource_creates hwf (reachable_directory hr)
    (reachable_searchable hr).exists_root destPath).exists_ok
  have hcall : found = none → ∀ fuel,
      adminSetSource P fuel h destPath srcPath = .ok (h₁, .badParameter) := by
    rintro rfl fuel
    simp only [adminSetSource, hdest, ok_bind]
    rfl
  cases hgets with
  | there hgood hfind hres => exact keeps_there srcPath hr hgood hdest hfind hres
  | created hgood hres hresources hmarked hgrown =>
    exact keeps_created srcPath hr hgood hdest hres hresources hmarked
  | refused hbad hthere =>
    refine iff_of_true (fun fuel h' result hok _ => ?_)
      ⟨fun _ => hthere, fun hgood => absurd hgood hbad, fun d s x old fuel hat => ?_⟩
    · cases (hcall rfl fuel).symm.trans hok
      exact ⟨rfl, rfl⟩
    · obtain ⟨e, hfound, -⟩ := hat.getResource hwf
      cases hdest.symm.trans hfound
  | refusedLate hbad hthere hmarked hgrown =>
    refine iff_of_false (fun hkeeps => ?_) fun hok => hthere (hok.dest hbad)
    exact hmarked.ne (hkeeps 0 _ _ (hcall rfl 0) (.inr rfl)).1

/-- The resource at the path has no source. -/
def sourceless (path : CString) (h : Hub) : Bool :=
  match resTreeFindEntry smallPlatform h rootPtr path with
  | .ok (some e) => (h.entries e).any fun entry =>
    entry.resourcePtr.any fun r => (h.resources r).any fun x => x.srcPtr.isNone
  | _ => false

theorem srcPtr_of_sourceless (hp : sourceless path h = true)
    (hat : ResourceAt smallPlatform h path d)
    {x : Resource} (hx : h.resources d = some x) : x.srcPtr = none := by
  obtain ⟨e, hfind, entry, hentry, hptr⟩ := hat
  simpa [sourceless, hfind, hentry, hptr, hx] using hp

/-- The call returns `LE_DUPLICATE`. -/
def refusesLoop (call : Except Fault (Hub × LeResult)) : Bool :=
  match call with
  | .ok (_, .duplicate) => true
  | _ => false

theorem exists_of_refusesLoop {call : Except Fault (Hub × LeResult)}
    (hp : refusesLoop call = true) :
    ∃ h', call = .ok (h', .duplicate) := by
  unfold refusesLoop at hp
  split at hp
  · exact ⟨_, rfl⟩
  · cases hp

/-- Two routes in a row. -/
def twoRoutes : List Op :=
  [.adminSetSource (ascii "b") (ascii "a"), .adminSetSource (ascii "c") (ascii "b")]

theorem refusalKeeps_chain : ∃ h h', Reachable smallPlatform h ∧
    adminSetSource smallPlatform 8 h (ascii "a") (ascii "c") = .ok (h', .duplicate) ∧
      h'.entries = h.entries ∧ h'.resources = h.resources := by
  have hrun : smallRunEnds twoRoutes (fun h => sourceless (ascii "a") h &&
      refusesLoop (adminSetSource smallPlatform 8 h (ascii "a") (ascii "c"))) = true := by
    decide +kernel
  obtain ⟨h, hr, hp⟩ := exists_of_smallRunEnds hrun
  rw [Bool.and_eq_true] at hp
  obtain ⟨h', hcall⟩ := exists_of_refusesLoop hp.2
  have hdest : Acceptable smallPlatform (ascii "a") := by
    unfold Acceptable Malformed
    decide
  have hsrc : Acceptable smallPlatform (ascii "c") := by
    unfold Acceptable Malformed
    decide
  have hkeeps := (refusalKeeps_iff hr (ascii "a") (ascii "c")).mpr
    { dest := fun hbad => absurd hdest hbad
      source := fun _ hbad => absurd hsrc hbad
      loop := by
        intro d s x old fuel hat _ hx hold
        rw [srcPtr_of_sourceless hp.1 hat hx] at hold
        cases hold }
  exact ⟨h, h', hr, hcall, hkeeps 8 h' _ hcall (.inl rfl)⟩

/-- Two routes in a row from a resource that has a source. -/
def fedRun : List Op :=
  [.adminSetSource (ascii "b") (ascii "a"),
   .adminSetSource (ascii "c") (ascii "b"),
   .adminSetSource (ascii "a") (ascii "z")]

def cutsRoute (call : Except Fault (Hub × LeResult)) (d : ResRef) : Bool :=
  match call with
  | .ok (h, .duplicate) => (h.resources d).any fun x => x.srcPtr.isNone
  | _ => false

theorem exists_of_cutsRoute {call : Except Fault (Hub × LeResult)}
    (hcut : cutsRoute call d = true) :
    ∃ h' x, call = .ok (h', .duplicate) ∧ h'.resources d = some x ∧ x.srcPtr = none := by
  unfold cutsRoute at hcut
  split at hcut
  · next h' =>
    obtain ⟨x, hx, hnone⟩ := (Option.any_eq_true _ _).mp hcut
    exact ⟨h', x, rfl, hx, Option.isNone_iff_eq_none.mp hnone⟩
  · cases hcut

/-- The call that would close the loop is refused, and cuts the route into its destination. -/
theorem refusalKeeps_fails : ¬ ∀ h destPath srcPath fuel, Reachable smallPlatform h →
    RefusalKeeps h (adminSetSource smallPlatform fuel h destPath srcPath) := by
  intro hall
  have hrun : smallRunEnds fedRun (fun h =>
      (h.resources 1).any (fun x => x.srcPtr.isSome) &&
        cutsRoute (adminSetSource smallPlatform 8 h (ascii "a") (ascii "c")) 1) = true := by
    decide +kernel
  obtain ⟨h, hr, hp⟩ := exists_of_smallRunEnds hrun
  rw [Bool.and_eq_true] at hp
  obtain ⟨x, hx, hsome⟩ := (Option.any_eq_true _ _).mp hp.1
  obtain ⟨h', x', hcall, hx', hnone⟩ := exists_of_cutsRoute hp.2
  have hkeep := hall h _ _ 8 hr h' _ hcall (.inl rfl)
  rw [hkeep.2, hx] at hx'
  cases hx'
  rw [hnone] at hsome
  cases hsome

end MangOH.DataHub
