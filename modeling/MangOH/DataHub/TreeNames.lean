import MangOH.DataHub.Creations
import MangOH.Lib.Directory

/-! The resource tree as a directory of named entries, and the kinds that entries go through. -/
namespace MangOH.DataHub

open Outcome

variable {P : Platform} {h h' : Hub} {e c parent : EntryRef} {entry entry' : Entry}
  {name : CString} {et : EntryType} {y : Resource}

/-- An entry as a node of the directory. -/
def Entry.node (entry : Entry) : DirNode EntryRef CString :=
  ⟨entry.parentPtr, entry.name, entry.childList⟩

def Hub.directory (h : Hub) : Directory EntryRef CString := fun e => (h.entries e).map Entry.node

theorem directory_of_entry (he : h.entries e = some entry) : h.directory e = some entry.node := by
  simp [Hub.directory, he]

theorem directory_congr (hent : h'.entries = h.entries) : h'.directory = h.directory := by
  unfold Hub.directory
  rw [hent]

theorem directory_update (he : h.entries e = some entry)
    (hent : h'.entries = Function.update h.entries e (some entry'))
    (hn : entry'.node = entry.node) : h'.directory = h.directory := by
  funext q
  unfold Hub.directory
  rw [hent]
  by_cases hq : q = e
  · subst hq
    rw [Function.update_self, he, Option.map_some, hn, Option.map_some]
  · rw [Function.update_of_ne hq]

/-! ### Changes of the directory -/

theorem findChild_none (hnew : resTreeFindChild h parent name = .ok none)
    (he : h.entries parent = some entry) :
    ∀ c ∈ entry.childList, ∀ child, h.entries c = some child → child.name ≠ name := by
  have hsearch : resTreeFindChild.search h name entry.childList = .ok none := by
    obtain ⟨ns, hns, hs⟩ := bind_eq_ok.mp hnew
    cases he.symm.trans (getEntry_ok.mp hns)
    exact hs
  clear hnew he
  revert hsearch
  induction entry.childList with
  | nil => exact fun _ c hc => absurd hc List.not_mem_nil
  | cons a rest ih =>
    intro hs c hc child hchild
    obtain ⟨first, hfirst, hs⟩ := bind_eq_ok.mp hs
    split at hs
    · cases hs
    · next hne =>
      rcases List.mem_cons.mp hc with rfl | hc
      · cases hchild.symm.trans (getEntry_ok.mp hfirst)
        exact hne
      · exact ih hs c hc child hchild

theorem directory_addChild (ha : addChild P h parent name = .ok (h', c))
    (hname : LegalName P name) : ∃ p, h.entries parent = some p ∧ c = h.nextEntry ∧
      h'.directory = h.directory.add parent c p.node name := by
  obtain ⟨p, hp, hc, hh⟩ := (addChild_frame h parent name).result ha
  dsimp only at hc hh
  refine ⟨p, hp, hc, ?_⟩
  subst hc hh
  funext q
  unfold Hub.directory Directory.add
  dsimp only
  by_cases hqc : q = h.nextEntry
  · subst hqc
    simp [Entry.node, leUtf8Copy, hname.2.1]
  · rw [Function.update_of_ne hqc, Function.update_of_ne hqc]
    by_cases hqp : q = parent
    · subst hqp
      simp [Entry.node]
    · rw [Function.update_of_ne hqp, Function.update_of_ne hqp]

/-- The directory changes by steps of its own. -/
abbrev DirSteps (P : Platform) : Directory EntryRef CString → Directory EntryRef CString → Prop :=
  Relation.ReflTransGen (Directory.Step (LegalName P))

theorem dirStep_addChild (hwf : WellFormed h) (ha : addChild P h parent name = .ok (h', c))
    (hname : LegalName P name) (hnew : resTreeFindChild h parent name = .ok none) :
    Directory.Step (LegalName P) h.directory h'.directory := by
  obtain ⟨p, hp, rfl, hdir⟩ := directory_addChild ha hname
  rw [hdir]
  refine .add (directory_of_entry hp) ?_ hname ?_
  · cases hn : h.entries h.nextEntry with
    | none => simp [Hub.directory, hn]
    | some entry => exact absurd (hwf.entry_lt _ _ hn) (Nat.lt_irrefl _)
  · intro q m hq hm
    obtain ⟨child, hchild, rfl⟩ := Option.map_eq_some_iff.mp hm
    exact findChild_none hnew hp q hq child hchild

/-- The hub after `EntryDestructor`. -/
def Hub.destroyed (h : Hub) (parent e : EntryRef) (p : Entry) : Hub :=
  (h.setEntry parent { p with childList := p.childList.erase e }).freeEntry e

theorem directory_destroyed (h : Hub) (parent e : EntryRef) (p : Entry) :
    (h.destroyed parent e p).directory = h.directory.remove parent e p.node := by
  funext q
  unfold Hub.directory Directory.remove Hub.destroyed Hub.freeEntry Hub.setEntry
  dsimp only
  by_cases hqe : q = e
  · simp [hqe]
  · rw [Function.update_of_ne hqe, Function.update_of_ne hqe]
    by_cases hqp : q = parent
    · simp [hqp, Entry.node]
    · simp [Function.update_of_ne hqp]

theorem destroyed_self {p : Entry} (hne : parent ≠ e) : (h.destroyed parent e p).entries parent =
    some { p with childList := p.childList.erase e } := by
  simp [Hub.destroyed, Hub.freeEntry, Hub.setEntry, hne]

theorem destroyed_other {p : Entry} {q : EntryRef} (hq : q ≠ parent)
    (hentry : (h.destroyed parent e p).entries q = some entry) :
    q ≠ e ∧ h.entries q = some entry := by
  by_cases hqe : q = e
  · subst hqe
    simp [Hub.destroyed, Hub.freeEntry] at hentry
  · exact ⟨hqe, by simpa [Hub.destroyed, Hub.freeEntry, Hub.setEntry, hqe, hq] using hentry⟩

theorem removals_releaseEntry (fuel : Nat) (h : Hub) (e : EntryRef) :
    Returns (releaseEntry fuel h e) fun h' =>
      Relation.ReflTransGen Directory.Removal h.directory h'.directory := by
  induction fuel generalizing h e with
  | zero => simp [releaseEntry]
  | succ fuel ih =>
    refine Returns.of_ok fun h' hr => ?_
    unfold releaseEntry at hr
    simp only [bind_eq_ok, getEntry_ok] at hr
    obtain ⟨entry, he, hr⟩ := hr
    split at hr
    · cases hr
      have hdir : (h.setEntry e { entry with refCount := entry.refCount - 1 }).directory
          = h.directory := directory_update he rfl rfl
      rw [hdir]
    · split at hr
      · cases hr
      · next parent hparent =>
        split at hr
        · cases hr
        · next hleaf =>
          obtain ⟨h₁, hm, hrel⟩ := bind_eq_ok.mp hr
          obtain ⟨p, hp, rfl⟩ := modifyEntry_ok.mp hm
          refine .head ?_ ((ih _ _).result hrel)
          have hchildren : entry.node.children = [] := by
            rw [not_or, not_ne_iff] at hleaf
            exact hleaf.1
          show Directory.Removal h.directory (h.destroyed parent e p).directory
          rw [directory_destroyed]
          exact .mk (directory_of_entry hp) (directory_of_entry he) hparent hchildren

theorem dirSteps_releaseEntry (fuel : Nat) (h : Hub) (e : EntryRef) :
    Returns (releaseEntry fuel h e) fun h' => DirSteps P h.directory h'.directory :=
  (removals_releaseEntry fuel h e).mono fun _ hr => hr.lift id fun _ _ hr => hr.step

theorem directory_micro (hwf : WellFormed h) (hm : Micro P h h') :
    DirSteps P h.directory h'.directory := by
  have hsame : h'.entries = h.entries → DirSteps P h.directory h'.directory := fun hent => by
    rw [directory_congr hent]
  cases hm with
  | ambient hs => exact hsame hs.entries
  | startUpdate => exact .refl
  | endUpdate => exact .refl
  | edit hx he hedit hreads hs hlog => exact hsame hs.entries
  | addHandler => exact .refl
  | removeHandler => exact .refl
  | unlink dest hu => exact hsame ((routesOnly_unlinkSource h dest).result hu).entries
  | link dest src fuel _ hnone hloop hl =>
    exact hsame ((routesOnly_linkSource _ dest src).result hl).entries
  | addChild parent name ha hname hnew => exact .single (dirStep_addChild hwf ha hname hnew)
  | replace he hre hy hr =>
    have hrep := (replaceResource_replaced hwf he hr).2
    rw [directory_update he hrep.entries rfl]
  | @remove h₁ _ r x entry evs hx he hsrc hdest hs hlog hfreed hrel =>
    have hdir : h₁.directory = h.directory := directory_update he hs.entries rfl
    exact hdir ▸ (dirSteps_releaseEntry _ _ _).result hrel

theorem directory_boot (env : Environment) (files : List (CString × Bytes)) :
    (boot env files).directory.Ok (LegalName P) := by
  have hroot : ∀ e n, (boot env files).directory e = some n → n.children = [] := by
    intro e n hn
    obtain ⟨entry, he, rfl⟩ := Option.map_eq_some_iff.mp hn
    simp only [boot] at he
    split at he
    · cases he
      rfl
    · cases he
  refine ⟨fun e n c he hc => ?_, fun e n he => ?_, fun e n c c' m m' he hc => ?_⟩
  · rw [hroot e n he] at hc
    cases hc
  · rw [hroot e n he]
    exact List.nodup_nil
  · rw [hroot e n he] at hc
    cases hc

theorem reachable_directory (hr : Reachable P h) : h.directory.Ok (LegalName P) :=
  reachable_induction (fun _ => True) (Q := fun h => h.directory.Ok (LegalName P))
    directory_boot (fun _ _ hwf hm _ hd => hd.steps (directory_micro hwf hm)) hr fun _ _ => trivial

/-! ### Kinds of entries -/

/-- An event that finds an entry to be a Namespace or a Placeholder. -/
inductive FoundPlain (e : EntryRef) : Event → Prop
  | nameSpace {entry : Entry} (ht : entry.type = .nameSpace) (r : ResRef) (et : EntryType)
      (y : Resource) : FoundPlain e (.attaching e entry r et y)
  | placeholder {x : Resource} (he : x.entryRef = e) (hc : x.cls = .placeholder)
      (old new : ResRef) (et : EntryType) (y : Resource) :
      FoundPlain e (.replacing old new x et y)

/-- Where a resource is created, its entry is plain, or becomes a Placeholder. -/
def CreatesPlainly (ev : Event) : Prop :=
  ∀ r et y, ev.creation = some (r, et, y) → et ≠ .placeholder → FoundPlain y.entryRef ev

theorem createsPlainly_micro (hwf : WellFormed h) (hm : Micro P h h')
    (hl : ∀ ev ∈ h.log, CreatesPlainly ev) : ∀ ev ∈ h'.log, CreatesPlainly ev := by
  obtain ⟨evs, hlog, hlogs⟩ := logs_micro hwf hm
  rw [hlog]
  intro ev hev
  refine (List.mem_append.mp hev).elim (hl ev) fun hev => ?_
  have hquiet : evs.filterMap Event.creation = [] → CreatesPlainly ev := by
    intro hnil r et y hcre
    have hmem : (r, et, y) ∈ evs.filterMap Event.creation := List.mem_filterMap.mpr ⟨ev, hev, hcre⟩
    rw [hnil] at hmem
    cases hmem
  cases hlogs with
  | notes hn =>
    intro r et y hcre
    rw [(hn.note ev hev).creation_eq] at hcre
    cases hcre
  | endUpdate => exact hquiet rfl
  | edit _ _ hedit => exact hquiet hedit.creation_eq
  | attach he hnone hy hnext =>
    rw [List.mem_singleton.mp hev]
    intro r et y hcre _
    cases hcre
    rw [hy.entryRef]
    exact .nameSpace ((hwf.nameSpace _ _ he).mpr hnone) _ _ _
  | @replace old x entry _ _ hx he hre hy hnext =>
    rw [List.mem_singleton.mp hev]
    intro r et y hcre hne
    cases hcre
    rw [hy.entryRef]
    refine .placeholder rfl ?_ _ _ _ _
    have hcls := hwf.cls old x entry hx he
    have hptr := hwf.resourcePtr hx he
    have hns := hwf.nameSpace _ _ he
    generalize entry.type = was at hre hcls hns
    cases hre with
    | nameSpace => exact absurd (hptr.symm.trans (hns.mp rfl)) (by simp)
    | placeholder => cases hc : x.cls <;> simp_all [ClassOk]
    | io => exact absurd rfl hne
  | free r hfreed => exact hquiet (by simp [List.filterMap_eq_nil_iff, Event.creation])

theorem reachable_createsPlainly (hr : Reachable P h) : ∀ ev ∈ h.log, CreatesPlainly ev :=
  reachable_induction (fun _ => True) (Q := fun h => ∀ ev ∈ h.log, CreatesPlainly ev)
    (fun _ _ _ hmem => absurd hmem List.not_mem_nil)
    (fun _ _ hwf hm _ hl => createsPlainly_micro hwf hm hl) hr fun _ _ => trivial

/-- The kinds that do not turn into each other. -/
def EntryType.special : EntryType → Bool
  | .input | .output | .observation => true
  | _ => false

/-- Where an entry has got another kind, it has been plain in between. -/
def PlainBetween (h h' : Hub) : Prop :=
  ∀ e entry entry', h.entries e = some entry → h'.entries e = some entry' →
    entry.type.special = true → entry'.type.special = true → entry'.type ≠ entry.type →
    ∃ evs, h'.log = h.log ++ evs ∧ ∃ ev ∈ evs, FoundPlain e ev

theorem dead_ext {b : Hub} {r : ResRef} (hwf : WellFormed b) (he : Ext P b h) (hlt : r < b.nextRes)
    (hdead : b.resources r = none) : r < h.nextRes ∧ h.resources r = none :=
  ext_induction (fun _ => True) (Q := fun h => r < h.nextRes ∧ h.resources r = none)
    ⟨hlt, hdead⟩ (fun _ _ hwf hm _ hq =>
      have hd := dead_micro (r := r) hwf hm
      ⟨Nat.lt_of_lt_of_le hq.1 hd.1, hd.2 hq.1 hq.2⟩) hwf he fun _ _ => trivial

theorem WellFormed.attachedTo (hwf : WellFormed h) (he : h.entries e = some entry)
    (hs : entry.type.special = true) :
    ∃ r x, entry.resourcePtr = some r ∧ h.resources r = some x ∧ x.entryRef = e := by
  cases hp : entry.resourcePtr with
  | some r =>
    obtain ⟨x, hx, hxe⟩ := hwf.resourceOf e entry r he hp
    exact ⟨r, x, rfl, hx, hxe⟩
  | none =>
    rw [(hwf.nameSpace e entry he).mpr hp] at hs
    cases hs

theorem plainBetween (hr : Reachable P h) (hl : Later P h h') : PlainBetween h h' := by
  intro e entry entry' he he' hs hs' hne
  have hwf := reachable_wellFormed hr
  have hr' := hl.reachable hr
  have hc := reachable_createdOnce hr
  obtain ⟨evs, hlog⟩ := ext_log hwf (hl.ext hwf)
  refine ⟨evs, hlog, ?_⟩
  obtain ⟨r, x, hptr, hx, rfl⟩ := hwf.attachedTo he hs
  obtain ⟨r', x', _, hx', hplace⟩ := (reachable_wellFormed hr').attachedTo he' hs'
  obtain ⟨y, _, hmem, _⟩ := hc.from_creation r x entry hx he
  obtain ⟨y', hy', hmem', _⟩ :=
    (reachable_createdOnce hr').from_creation r' x' entry' hx' (hplace.symm ▸ he')
  have hsplit : h'.creations = h.creations ++ evs.filterMap Event.creation := by
    rw [Hub.creations, hlog, List.filterMap_append]
    rfl
  rw [hsplit] at hmem'
  rcases List.mem_append.mp hmem' with hearly | hlate
  · -- the later resource would have been there before, in place of the earlier one
    cases hdead : h.resources r' with
    | none =>
      rw [(dead_ext hwf (hl.ext hwf) (hc.lt _ hearly) hdead).2] at hx'
      cases hx'
    | some x'' =>
      obtain ⟨entry'', he'', hptr''⟩ := hwf.entryOf r' x'' hdead
      obtain ⟨y'', hy'', hmem'', _⟩ := hc.from_creation r' x'' entry'' hdead he''
      obtain ⟨_, rfl⟩ := hc.unique hearly hmem''
      have hsame : x''.entryRef = x.entryRef := by
        rw [← hy''.entryRef, hy'.entryRef, hplace]
      rw [hsame] at he''
      cases he.symm.trans he''
      cases hptr.symm.trans hptr''
      exact absurd (hc.unique hmem hearly).1 hne
  · obtain ⟨ev, hev, hcre⟩ := List.mem_filterMap.mp hlate
    have hplain := reachable_createsPlainly hr' ev (by rw [hlog]; exact List.mem_append_right _ hev)
      r' _ y' hcre fun heq => by
        rw [heq] at hs'
        cases hs'
    rw [hy'.entryRef, hplace] at hplain
    exact ⟨ev, hev, hplain⟩

/-! ### The discipline of the tree -/

/-- What holds of the tree in every state. -/
structure TreeDiscipline (P : Platform) (h : Hub) : Prop where
  names : ∀ e entry c child, h.entries e = some entry → c ∈ entry.childList →
    h.entries c = some child → LegalName P child.name ∧
      ∀ c' child', c' ∈ entry.childList → h.entries c' = some child' →
        child.name = child'.name → c = c'
  parents : ∀ e entry, h.entries e = some entry → entry.childList.Nodup ∧
    ∀ c ∈ entry.childList, ∃ child, h.entries c = some child ∧ child.parentPtr = some e
  nameSpace : ∀ e entry, h.entries e = some entry →
    (entry.type = .nameSpace ↔ entry.resourcePtr = none)
  cls : ∀ e entry r, h.entries e = some entry → entry.resourcePtr = some r →
    ∃ x, h.resources r = some x ∧ x.entryRef = e ∧ ClassOk entry.type x.cls

theorem tree_discipline (hr : Reachable P h) :
    TreeDiscipline P h ∧ ∀ h', Later P h h' → PlainBetween h h' := by
  have hwf := reachable_wellFormed hr
  have hd := reachable_directory hr
  refine ⟨⟨?_, ?_, hwf.nameSpace, ?_⟩, fun h' hl => plainBetween hr hl⟩
  · intro e entry c child he hc hchild
    obtain ⟨m, hm, _, hlegal⟩ := hd.child e _ c (directory_of_entry he) hc
    cases (directory_of_entry hchild).symm.trans hm
    refine ⟨hlegal, fun c' child' hc' hchild' heq => ?_⟩
    exact hd.distinct e _ c c' _ _ (directory_of_entry he) hc hc' (directory_of_entry hchild)
      (directory_of_entry hchild') heq
  · intro e entry he
    refine ⟨hd.nodup e _ (directory_of_entry he), fun c hc => ?_⟩
    obtain ⟨m, hm, hparent, _⟩ := hd.child e _ c (directory_of_entry he) hc
    obtain ⟨child, hchild, rfl⟩ := Option.map_eq_some_iff.mp hm
    exact ⟨child, hchild, hparent⟩
  · intro e entry r he hptr
    obtain ⟨x, hx, rfl⟩ := hwf.resourceOf e entry r he hptr
    exact ⟨x, hx, rfl, hwf.cls r x entry hx he⟩

theorem tree_discipline_overPlaceholderRun : ∃ h, Reachable smallPlatform h ∧
    TreeDiscipline smallPlatform h ∧ ∀ h', Later smallPlatform h h' → PlainBetween h h' := by
  have hrun : smallRunEnds overPlaceholderRun (fun _ => true) = true := by
    decide +kernel
  obtain ⟨h, hr, _⟩ := exists_of_smallRunEnds hrun
  exact ⟨h, hr, tree_discipline hr⟩

end MangOH.DataHub
