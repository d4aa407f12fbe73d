import MangOH.DataHub.RouteLinks
import MangOH.DataHub.TreeRuns

/-! The reference counts of entries, and the runs in which no entry is destroyed too early. -/
namespace MangOH.DataHub

open Outcome

variable {P : Platform} {op : Op} {b h h' : Hub} {e x : EntryRef} {r : ResRef} {entry : Entry}
  {path : CString} {names : List CString} {act : Act}

/-- An entry has a reference for each child and one more, which a Namespace below the root may have
given up. -/
def Entry.Held (entry : Entry) : Prop :=
  entry.refCount = entry.childList.length + 1 ∨
    entry.refCount = entry.childList.length ∧ entry.childList ≠ [] ∧
      entry.resourcePtr = none ∧ entry.parentPtr ≠ none

def Counted (h : Hub) : Prop := ∀ e entry, h.entries e = some entry → entry.Held

/-- An entry that can lose a reference. -/
def Entry.Releasable (entry : Entry) : Prop :=
  entry.refCount = entry.childList.length + 2 ∨
    entry.refCount = entry.childList.length + 1 ∧ entry.resourcePtr = none ∧
      entry.parentPtr ≠ none

theorem Entry.Held.of_resource (hh : entry.Held) (hr : entry.resourcePtr = some r) :
    entry.refCount = entry.childList.length + 1 := by
  rcases hh with hcount | ⟨_, _, hnone, _⟩
  · exact hcount
  · rw [hr] at hnone
    cases hnone

/-- What an entry is left with when one of its children is destroyed. -/
theorem Entry.Held.erase (hh : entry.Held) (hx : x ∈ entry.childList) :
    Entry.Releasable { entry with childList := entry.childList.erase x } := by
  have hlen : (entry.childList.erase x).length + 1 = entry.childList.length := by
    rw [List.length_erase_of_mem hx]
    have := List.length_pos_of_mem hx
    omega
  rcases hh with hcount | ⟨hcount, _, hres, hparent⟩
  · exact .inl (by dsimp only; omega)
  · exact .inr ⟨by dsimp only; omega, hres, hparent⟩

/-! ### Releasing entries -/

/-- Releasing an entry ends well, and leaves the counts right. -/
theorem releaseEntry_counted {fuel : Nat} (ht : TreeOk P h) (hfuel : e < fuel)
    (he : h.entries e = some entry) (hrel : entry.Releasable)
    (hothers : ∀ x entry, x ≠ e → h.entries x = some entry → entry.Held) :
    ∃ h', releaseEntry fuel h e = .ok h' ∧ Counted h' := by
  induction fuel generalizing h e entry with
  | zero => exact absurd hfuel (Nat.not_lt_zero _)
  | succ fuel ih =>
    unfold releaseEntry
    rw [getEntry_ok.mpr he, ok_bind]
    split
    · next hcount =>
      refine ⟨_, rfl, fun x entry' hx => ?_⟩
      by_cases hxe : x = e
      · subst hxe
        simp only [Hub.setEntry, Function.update_self, Option.some.injEq] at hx
        subst hx
        rcases hrel with hcount' | ⟨hcount', hres, hparent⟩
        · exact .inl (by dsimp only; omega)
        · refine .inr ⟨by dsimp only; omega, fun hnil => ?_, hres, hparent⟩
          rw [show entry.childList = [] from hnil] at hcount'
          exact absurd hcount (by simp [hcount'])
      · simp only [Hub.setEntry, Function.update_of_ne hxe] at hx
        exact hothers x entry' hxe hx
    · next hcount =>
      -- the last reference: there are no children left
      rcases hrel with hcount' | ⟨hcount', hres, hparent⟩
      · omega
      · have hleaf : entry.childList = [] := List.length_eq_zero_iff.mp (by omega)
        obtain ⟨parent, hparent⟩ := Option.ne_none_iff_exists'.mp hparent
        have hlt := ht.parent_lt e entry parent he hparent
        obtain ⟨m, hm, hmem⟩ :=
          ht.rooted.listed ht.directory ht.root (directory_of_entry he) hparent
        obtain ⟨p, hp, rfl⟩ := Option.map_eq_some_iff.mp hm
        have hne : parent ≠ e := Nat.ne_of_lt hlt
        rw [hparent]
        dsimp only
        rw [if_neg (by simp [hleaf, hres]), modifyEntry_ok.mpr ⟨p, hp, rfl⟩, ok_bind]
        refine ih (destroyed_treeOk ht he hp hparent hleaf)
          (Nat.lt_of_lt_of_le hlt (Nat.le_of_lt_succ hfuel)) (destroyed_self hne)
          ((hothers parent p hne hp).erase hmem) fun x entry' hxp hx => ?_
        obtain ⟨hxe, hx⟩ := destroyed_other hxp hx
        exact hothers x entry' hxe hx

/-- The last step of both deletion paths. -/
theorem counted_free {told : List Notice} (ht : TreeOk P h) (hc : Counted h)
    (hr : Retyped h h' e entry .nameSpace none told) (hptr : entry.resourcePtr = some r)
    (hparent : entry.parentPtr ≠ none) :
    ∃ h'', releaseEntry (e + 1) h' e = .ok h'' ∧ Counted h'' := by
  refine releaseEntry_counted (hr.treeOk ht (by simp)) (Nat.lt_succ_self e) hr.self
    (.inr ⟨(hc e entry hr.was).of_resource hptr, rfl, hparent⟩) fun x entry' hx he => ?_
  exact hc x entry' (hr.other hx ▸ he)

/-! ### Acts -/

theorem Retyped.counted {told : List Notice} {et : EntryType} {ptr : Option ResRef}
    (hr : Retyped h h' e entry et ptr told) (hc : Counted h)
    (hcount : entry.refCount = entry.childList.length + 1) : Counted h' := by
  intro x entry' hx
  by_cases hxe : x = e
  · subst hxe
    cases hr.self.symm.trans hx
    exact .inl hcount
  · exact hc x entry' (hr.other hxe ▸ hx)

/-- An act keeps the counts right if it gives no resource to a Namespace that only its children
keep, and does not release the root. -/
theorem counted_act (ht : TreeOk P h) (hc : Counted h) (hs : TreeStep P h act h')
    (hfresh : ∀ e entry, (act = .settle e ∨ ∃ et, act = .add e et) → h.entries e = some entry →
      entry.type = .nameSpace → entry.refCount ≠ entry.childList.length)
    (hbelow : ∀ e et entry, act = .free e et → h.entries e = some entry →
      entry.parentPtr ≠ none) : Counted h' := by
  have hnew : ∀ {e entry}, (act = .settle e ∨ ∃ et, act = .add e et) → h.entries e = some entry →
      entry.type = .nameSpace → entry.refCount = entry.childList.length + 1 := by
    intro e entry hact he hns
    rcases hc e entry he with hcount | ⟨hcount, _⟩
    · exact hcount
    · exact absurd hcount (hfresh e entry hact he hns)
  cases hs with
  | create ha hname =>
    intro x entry' hx
    rcases addChild_cases ha hname hx with ⟨_, rfl⟩ | ⟨_, _, p, hp, rfl⟩ | ⟨_, _, hx⟩
    · exact .inl rfl
    · rcases hc _ p hp with hcount | ⟨hcount, _, hres, hparent⟩
      · exact .inl (by simp [hcount])
      · exact .inr ⟨by simp [hcount], by simp, hres, hparent⟩
    · exact hc x entry' hx
  | settle hns hr => exact hr.counted hc (hnew (.inl rfl) hr.was hns)
  | @add e et r entry path _ hplain _ _ hr =>
    refine hr.counted hc ?_
    cases hres : entry.resourcePtr with
    | none =>
      exact hnew (.inr ⟨et, rfl⟩) hr.was ((ht.nameSpace _ _ hr.was).mpr hres)
    | some r => exact (hc _ _ hr.was).of_resource hres
  | @unplug e r entry path _ hio _ hr =>
    refine hr.counted hc ?_
    cases hres : entry.resourcePtr with
    | none =>
      rw [(ht.nameSpace _ _ hr.was).mpr hres] at hio
      cases hio
    | some r => exact (hc _ _ hr.was).of_resource hres
  | free hptr _ hr hrel =>
    obtain ⟨h'', hok, hcounted⟩ := counted_free ht hc hr hptr (hbelow _ _ _ rfl hr.was)
    cases hok.symm.trans hrel
    exact hcounted
  | cache => exact hc

/-! ### Runs -/

/-- The operation creates resources. -/
def Op.attaches (op : Op) : Bool := op.creates.isSome || !op.resources.isEmpty

/-- The operation gives no resource to a Namespace that only its children keep. -/
def sparesReleased (P : Platform) (h : Hub) (op : Op) : Prop :=
  op.attaches = true → ∀ names e entry, Goal P op names → h.directory.Leads rootPtr names e →
    h.entries e = some entry → entry.type = .nameSpace →
    entry.refCount ≠ entry.childList.length

theorem attaches_of_resource (hop : path ∈ op.resources) : op.attaches = true := by
  unfold Op.attaches
  cases hres : op.resources with
  | nil =>
    rw [hres] at hop
    cases hop
  | cons => simp

theorem attaches_of_creates {et : EntryType} (hop : op.creates = some et) :
    op.attaches = true := by
  simp [Op.attaches, hop]

theorem spares_calm (hs : sparesReleased P h op) (hc : Calm h h') : sparesReleased P h' op := by
  unfold sparesReleased
  rw [directory_congr hc.entries, hc.entries]
  exact hs

theorem Retyped.spares {told : List Notice} {et : EntryType} {ptr : Option ResRef}
    (hr : Retyped h h' e entry et ptr told) (het : et ≠ .nameSpace)
    (hs : sparesReleased P h op) : sparesReleased P h' op := by
  intro hop names x entry' hg hl hx hns
  rw [hr.directory] at hl
  by_cases hxe : x = e
  · subst hxe
    cases hr.self.symm.trans hx
    exact absurd hns het
  · exact hs hop names x entry' hg hl (hr.other hxe ▸ hx) hns

theorem spares_act (ht : TreeOk P h) (hs : sparesReleased P h op) (hstep : TreeStep P h act h')
    (hl : Allowed P op b h act) : sparesReleased P h' op := by
  have hback : ∀ {x : EntryRef} {names : List CString}, h'.directory.Leads rootPtr names x →
      h.directory x ≠ none → h.directory.Leads rootPtr names x := hstep.leads_back ht
  cases hstep with
  | create ha hname =>
    intro hop names x entry' hg hl' hx hns
    rcases addChild_cases ha hname hx with ⟨_, rfl⟩ | ⟨_, rfl, p, hp, rfl⟩ | ⟨_, _, hx⟩
    · exact Nat.one_ne_zero
    · have := hs hop names x p hg (hback hl' (by simp [directory_of_entry hp])) hp hns
      simpa using this
    · exact hs hop names x entry' hg (hback hl' (by simp [directory_of_entry hx])) hx hns
  | settle _ hr => exact hr.spares (by simp) hs
  | add _ het _ hr =>
    refine hr.spares ?_ hs
    rintro rfl
    cases het
  | unplug _ _ hr => exact hr.spares (by simp) hs
  | free =>
    intro hop
    cases hl with
    | freeIo hop' =>
      subst hop'
      cases hop
    | freeObs hop' =>
      subst hop'
      cases hop
  | cache => exact hs

theorem counted_boot (env : Environment) (files : List (CString × Bytes)) :
    Counted (boot env files) := by
  intro e entry he
  simp only [boot] at he
  split at he
  · cases he
    exact .inl rfl
  · cases he

/-- The counts are right throughout an operation that spares released Namespaces. -/
theorem counted_run (hb : TreeOk P b) (hsess : SessionsOk P b) (hc : Counted b)
    (hok : sparesReleased P b op) (hr : TreeRun P (Allowed P op b) b h) : Counted h := by
  refine (treeRun_induction (Q := fun h => Counted h ∧ sparesReleased P h op) caches_allowed hb
    hsess ⟨hc, hok⟩ ?_ ?_ hr).2.2.1
  · rintro h h' _ ⟨hc, hs⟩ hcalm
    refine ⟨?_, spares_calm hs hcalm⟩
    unfold Counted
    rw [hcalm.entries]
    exact hc
  · rintro h act h' ht _ ⟨hc, hs⟩ hstep hl
    refine ⟨counted_act ht hc hstep ?_ ?_, spares_act ht hs hstep hl⟩
    · rintro e entry hact he hns
      rcases hact with rfl | ⟨et, rfl⟩
      · cases hl with
        | settle hop hl => exact hs (attaches_of_resource hop) _ e entry (.resource hop) hl he hns
      · cases hl with
        | add hop hg hl => exact hs (attaches_of_creates hop) _ e entry hg hl he hns
    · rintro e et entry rfl he
      obtain ⟨name, names, hleads⟩ := hl.below
      exact ht.parent_of_leads hleads he

theorem reachableIf_counted (hr : ReachableIf P (sparesReleased P) h) :
    TreeOk P h ∧ SessionsOk P h ∧ Counted h :=
  reachableIf_induction counted_boot (fun _ _ _ hb hsess hc hok hr =>
    counted_run hb hsess hc hok hr) hr

/-! ### The assertions of `EntryDestructor` -/

def EntryFault (f : Fault) : Prop := f = .entryAssertion

theorem bad_of_entryFault (f : Fault) (hf : EntryFault f) : Bad f := by
  cases hf
  exact trivial

theorem entry_releaseResource (h : Hub) (r : ResRef) :
    Sat EntryFault (releaseResource P h r) fun _ => True := by
  unfold releaseResource
  refine ((sat_getResource h r).weaken bad_of_entryFault).bind fun x _ => ?_
  dsimp only
  split
  · simp [EntryFault]
  · exact trivial

theorem entry_resDeleteObservation {y : Resource} (fuel : Nat) (he : Ext P b h)
    (hy : h.resources r = some y) :
    Sat EntryFault (resDeleteObservation P fuel h r) fun _ => True := by
  rw [resDeleteObservation_eq fuel h r hy]
  refine ((sat_unroute fuel he r).weaken bad_of_entryFault).bind fun h₁ _ => ?_
  refine ((sat_getResource h₁ r).weaken bad_of_entryFault).bind fun _ _ => ?_
  exact entry_releaseResource h₁ r

theorem entry_resTreeDeleteIO (hb : Ext P b h) (ht : TreeOk P h) (hc : Counted h)
    (he : h.entries e = some entry) (hio : entry.type.isIo = true)
    (hparent : entry.parentPtr ≠ none) :
    Sat EntryFault ( resTreeDeleteIO P h e) fun _ => True := by
  unfold resTreeDeleteIO
  refine ((sat_attachedTo h e).weaken bad_of_entryFault).bind ?_
  rintro r ⟨entry', he', hptr⟩
  cases he.symm.trans he'
  rw [getEntry_ok.mpr he, ok_bind]
  refine ((hb.treeChange e entry.type .removed).weaken bad_of_entryFault).and_result.bind ?_
  rintro h₁ ⟨⟨hb₁, _⟩, htell⟩
  obtain ⟨path, _, htold⟩ := (told_treeChange _ _ _ _).result htell
  have he₁ : h₁.entries e = some entry := htold.entries ▸ he
  refine ((sat_getResource h₁ r).weaken bad_of_entryFault).bind fun x _ => ?_
  split
  · exact ((hb₁.replace he₁ (.io hio) .placeholder).weaken bad_of_entryFault).bind
      fun _ _ => trivial
  · have hdetached : detach h₁ e = .ok (h₁.setEntry e
        { entry with resourcePtr := none, type := .nameSpace }) :=
      modifyEntry_ok.mpr ⟨entry, he₁, rfl⟩
    obtain ⟨entry', hret⟩ := (retyped_modify _ _ _ _).result hdetached
    cases he₁.symm.trans hret.was
    rw [hdetached, ok_bind]
    refine (entry_releaseResource _ r).and_result.bind ?_
    rintro h₃ ⟨_, hrelease⟩
    have hcalm := (calm_releaseResource (Calm.refl _) r).result hrelease
    obtain ⟨h₄, hrel, _⟩ := counted_free ht hc ((htold.retyped hret).calm hcalm) hptr hparent
    rw [hrel]
    exact trivial

theorem entry_resTreeDeleteObservation (fuel : Nat) (hb : Ext P b h) (ht : TreeOk P h)
    (hc : Counted h) (he : h.entries e = some entry) (hparent : entry.parentPtr ≠ none) :
    Sat EntryFault (resTreeDeleteObservation P fuel h e) fun _ => True := by
  unfold resTreeDeleteObservation
  refine ((hb.treeChange e .observation .removed).weaken bad_of_entryFault).and_result.bind ?_
  rintro h₁ ⟨⟨hb₁, _⟩, htell⟩
  obtain ⟨path, _, htold⟩ := (told_treeChange _ _ _ _).result htell
  have he₁ : h₁.entries e = some entry := htold.entries ▸ he
  refine ((sat_attachedTo h₁ e).weaken bad_of_entryFault).bind ?_
  rintro r ⟨entry', he', hptr⟩
  cases he₁.symm.trans he'
  obtain ⟨y, hy, _⟩ := hb₁.wf.resourceOf e entry r he₁ hptr
  refine (entry_resDeleteObservation fuel hb₁ hy).and_result.bind ?_
  rintro h₂ ⟨_, hdelete⟩
  have hcalm := (calm_resDeleteObservation fuel (Calm.refl h₁) r).result hdelete
  have hdetached : detach h₂ e = .ok (h₂.setEntry e
      { entry with resourcePtr := none, type := .nameSpace }) :=
    modifyEntry_ok.mpr ⟨entry, hcalm.entries ▸ he₁, rfl⟩
  obtain ⟨entry', hret⟩ := (retyped_modify _ _ _ _).result hdetached
  cases (hcalm.entries ▸ he₁ : h₂.entries e = some entry).symm.trans hret.was
  rw [hdetached, ok_bind]
  obtain ⟨h₄, hrel, _⟩ :=
    counted_free ht hc (htold.retyped (hcalm.told.retyped hret)) hptr hparent
  rw [hrel]
  exact trivial

/-- Where the counts are right, no operation fails an assertion of `EntryDestructor`. -/
theorem entry_step (fuel : Nat) (hb : Ext P b h) (ht : TreeOk P h) (hsess : SessionsOk P h)
    (hc : Counted h) (op : Op) : Sat EntryFault (step P fuel h op) fun _ => True := by
  cases hread : op.reads with
  | true => exact (free_step_reads fuel hb op hread).weaken fun _ hf => .inr hf
  | false =>
    cases hrel : op.releases with
    | false =>
      exact ((sat_step fuel hb op hread hrel).weaken bad_of_entryFault).mono fun _ _ => trivial
    | true =>
      cases op <;> cases hrel
      · next session path =>
        have hop : (Op.ioDeleteResource session path).client = some (session, path) := rfl
        have hsat := ((sat_ioFindResource hb session path).weaken bad_of_entryFault).and_result
        refine hsat.bind ?_
        rintro ⟨h₁, found⟩ ⟨⟨hb₁, _⟩, hfind⟩
        obtain ⟨hr₁, hfound⟩ := (run_ioFindResource ht hsess hop).result hfind
        cases found with
        | none => exact trivial
        | some e =>
          obtain ⟨names, entry, hg, hl, he, hio⟩ := hfound e rfl
          have hc₁ := counted_run ht hsess hc (fun hattaches => by cases hattaches) hr₁
          have ht₁ := hr₁.treeOk ht
          obtain ⟨name, names, hl⟩ := (Allowed.freeIo rfl hg hl he hio : Allowed P
            (.ioDeleteResource session path) h h₁ (.free e entry.type)).below
          exact entry_resTreeDeleteIO hb₁ ht₁ hc₁ he hio (ht₁.parent_of_leads hl he)
      · next path =>
        show Sat EntryFault (adminDeleteObs P fuel h path) _
        rw [adminDeleteObs_eq]
        obtain ⟨found, htarget, hfound⟩ := deleteTarget_spec ht.toSearchable path
        rw [htarget, ok_bind]
        cases found with
        | none => exact trivial
        | some e =>
          have hf := (hfound e).mp rfl
          obtain ⟨entry, he⟩ := exists_entry_of_found ht.toSearchable hf
          obtain ⟨ns, hns, hl⟩ := hf
          exact entry_resTreeDeleteObservation fuel hb ht hc he
            (ht.parent_of_leads (Directory.leads_append.mpr ⟨ns, hns, hl⟩) he)

/-- No entry or resource refers to an entry that has been destroyed, and no entry is destroyed
without a parent, with children or with a resource. -/
structure LivingEntries (P : Platform) (h : Hub) : Prop where
  parents : ∀ names e entry parent, h.directory.Leads rootPtr names e →
    h.entries e = some entry → entry.parentPtr = some parent → ∃ p, h.entries parent = some p
  resources : ∀ r x, h.resources r = some x → ∃ entry, h.entries x.entryRef = some entry
  destruct : ∀ fuel op, step P fuel h op ≠ .error .entryAssertion

theorem living_entries (hr : ReachableIf P (sparesReleased P) h) : LivingEntries P h := by
  obtain ⟨ht, hsess, hc⟩ := reachableIf_counted hr
  obtain ⟨env, files, hb⟩ := reachable_ext hr.reachable
  refine ⟨fun names e entry parent _ he hparent => ?_, fun r x hx => ?_, fun fuel op heq => ?_⟩
  · obtain ⟨m, hm, _⟩ := ht.rooted.listed ht.directory ht.root (directory_of_entry he) hparent
    obtain ⟨p, hp, _⟩ := Option.map_eq_some_iff.mp hm
    exact ⟨p, hp⟩
  · obtain ⟨entry, he, _⟩ := hb.wf.entryOf r x hx
    exact ⟨entry, he⟩
  · exact (entry_step fuel hb ht hsess hc op).no_bad heq rfl

theorem spares_boot (env : Environment) (files : List (CString × Bytes)) (op : Op) :
    sparesReleased P (boot env files) op := by
  intro _ names e entry _ _ he _
  simp only [boot] at he
  split at he
  · cases he
    exact Nat.one_ne_zero
  · cases he

theorem living_entries_deletedObs : ∃ h h', smallRun [.adminCreateObs (ascii "a/b")] = .ok h ∧
    run smallPlatform 8 h [.adminDeleteObs (ascii "a/b"),
      .ioDeleteResource 0 (ascii "x")] = .ok h' ∧
    LivingEntries smallPlatform h' := by
  have hrun : smallRunEnds [.adminCreateObs (ascii "a/b")] (fun h =>
      passes (run smallPlatform 8 h [.adminDeleteObs (ascii "a/b"),
        .ioDeleteResource 0 (ascii "x")]) fun _ => true) = true := by
    decide +kernel
  unfold smallRunEnds at hrun
  split at hrun
  · next h hfirst =>
    obtain ⟨h', hrest, -⟩ := passes_iff.mp hrun
    obtain ⟨h₁, hs, hnil⟩ := bind_eq_ok.mp hfirst
    cases hnil
    refine ⟨_, h', hfirst, hrest, living_entries (reachableIf_run
      (.step 8 _ (.boot smallEnvironment []) (spares_boot _ _ _) hs) ?_ hrest)⟩
    intro op hop h hattaches
    rcases List.mem_cons.mp hop with rfl | hop
    · cases hattaches
    · cases List.mem_singleton.mp hop
      cases hattaches
  · cases hrun

/-- An Observation that has lost its first resource while it had a child is created again. -/
def recreatedRun : List Op :=
  [.adminCreateObs (ascii "a"), .adminCreateObs (ascii "a/b"), .adminDeleteObs (ascii "a"),
   .adminCreateObs (ascii "a")]

/-- The Observation is destroyed while its child is there. -/
theorem living_entries_fails : ∃ h, Reachable smallPlatform h ∧
    ¬ LivingEntries smallPlatform h := by
  have hrun : smallRunEnds recreatedRun (fun h =>
      failsWith (step smallPlatform 8 h (.adminDeleteObs (ascii "a")))
        fun f => decide (f = .entryAssertion)) = true := by
    decide +kernel
  obtain ⟨h, hr, hp⟩ := exists_of_smallRunEnds hrun
  refine ⟨h, hr, fun hl => ?_⟩
  obtain ⟨f, hs, hf⟩ := failsWith_iff.mp hp
  rw [of_decide_eq_true hf] at hs
  exact hl.destruct _ _ hs

end MangOH.DataHub
