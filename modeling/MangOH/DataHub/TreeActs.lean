import MangOH.DataHub.Calm
import MangOH.DataHub.Paths

/-! The changes that are made to the resource tree, and what each of them keeps. -/
namespace MangOH.DataHub

open Outcome Relation

variable {P : Platform} {L : Hub → Act → Prop} {b h h' h'' : Hub} {e c ns x : EntryRef}
  {entry : Entry} {et : EntryType} {ptr : Option ResRef} {names : List CString}

/-- What handlers for changes of the tree are called with: a path, a type and what has happened. -/
abbrev Notice := CString × EntryType × ResourceOperation

/-- Handlers have been told something, and that is all. -/
structure Told (h h' : Hub) (told : List Notice) : Prop where
  entries : h'.entries = h.entries
  nextEntry : h'.nextEntry = h.nextEntry
  sessions : h'.sessions = h.sessions
  notices : h'.notices = h.notices ++ told

/-- An entry has got another type, and handlers have been told something. -/
structure Retyped (h h' : Hub) (e : EntryRef) (entry : Entry) (et : EntryType)
    (ptr : Option ResRef) (told : List Notice) : Prop where
  was : h.entries e = some entry
  entries : h'.entries = Function.update h.entries e
    (some { entry with type := et, resourcePtr := ptr })
  nextEntry : h'.nextEntry = h.nextEntry
  sessions : h'.sessions = h.sessions
  notices : h'.notices = h.notices ++ told

/-- A change of the tree, or of the namespace saved for a session. -/
inductive Act
  | create (parent : EntryRef) (name : CString)
  /-- a Namespace becomes a Placeholder -/
  | settle (e : EntryRef)
  /-- a Namespace or Placeholder becomes an Input, Output or Observation -/
  | add (e : EntryRef) (et : EntryType)
  /-- an Input or Output becomes a Placeholder -/
  | unplug (e : EntryRef)
  /-- a resource is deleted, and its entry released -/
  | free (e : EntryRef) (et : EntryType)
  | cache (session : Nat) (ns : Option EntryRef)

/-- The path that the handlers are called with for an entry. -/
def NoticePath (P : Platform) (h : Hub) (e : EntryRef) (path : CString) : Prop :=
  ∃ fits, getAbsolutePath P h (ioMaxResourcePathLen + 1) (e + 1) e = .ok (path, fits)

inductive TreeStep (P : Platform) (h : Hub) : Act → Hub → Prop
  | create {parent c : EntryRef} {name : CString} {h' : Hub}
      (ha : addChild P h parent name = .ok (h', c)) (hname : LegalName P name)
      (hnew : resTreeFindChild h parent name = .ok none) : TreeStep P h (.create parent name) h'
  | settle {e : EntryRef} {r : ResRef} {entry : Entry} {h' : Hub} (ht : entry.type = .nameSpace)
      (hr : Retyped h h' e entry .placeholder (some r) []) : TreeStep P h (.settle e) h'
  | add {e : EntryRef} {et : EntryType} {r : ResRef} {entry : Entry} {path : CString} {h' : Hub}
      (ht : entry.type.special = false) (het : et.special = true) (hp : NoticePath P h e path)
      (hr : Retyped h h' e entry et (some r) [(path, et, .added)]) : TreeStep P h (.add e et) h'
  | unplug {e : EntryRef} {r : ResRef} {entry : Entry} {path : CString} {h' : Hub}
      (hio : entry.type.isIo = true) (hp : NoticePath P h e path)
      (hr : Retyped h h' e entry .placeholder (some r) [(path, entry.type, .removed)]) :
      TreeStep P h (.unplug e) h'
  | free {e : EntryRef} {et : EntryType} {r : ResRef} {entry : Entry} {path : CString}
      {h₁ h' : Hub} (hattached : entry.resourcePtr = some r) (hp : NoticePath P h e path)
      (hr : Retyped h h₁ e entry .nameSpace none [(path, et, .removed)])
      (hrel : releaseEntry (e + 1) h₁ e = .ok h') : TreeStep P h (.free e et) h'
  | cache (session : Nat) (ns : Option EntryRef) :
      TreeStep P h (.cache session ns)
        { h with sessions := Function.update h.sessions session ns }

/-- The tree changes by acts that are allowed in the states in which they occur. -/
def TreeMove (P : Platform) (L : Hub → Act → Prop) (h h' : Hub) : Prop :=
  Calm h h' ∨ ∃ act, TreeStep P h act h' ∧ L h act

abbrev TreeRun (P : Platform) (L : Hub → Act → Prop) : Hub → Hub → Prop :=
  ReflTransGen (TreeMove P L)

theorem calm_run (hr : TreeRun P L b h) (hc : Calm h h') : TreeRun P L b h' := hr.tail (.inl hc)

theorem act_run {act : Act} (hr : TreeRun P L b h) (hs : TreeStep P h act h') (hl : L h act) :
    TreeRun P L b h' := hr.tail (.inr ⟨act, hs, hl⟩)

/-! ### What is told and retyped -/

theorem Calm.told (hc : Calm h h') : Told h h' [] :=
  ⟨hc.entries, hc.nextEntry, hc.sessions, by rw [hc.notices, List.append_nil]⟩

theorem Retyped.calm {told : List Notice} (hr : Retyped h h' e entry et ptr told)
    (hc : Calm h' h'') : Retyped h h'' e entry et ptr told :=
  ⟨hr.was, hc.entries.trans hr.entries, hc.nextEntry.trans hr.nextEntry,
    hc.sessions.trans hr.sessions, hc.notices.trans hr.notices⟩

theorem Retyped.tell {told more : List Notice} (hr : Retyped h h' e entry et ptr told)
    (ht : Told h' h'' more) : Retyped h h'' e entry et ptr (told ++ more) :=
  ⟨hr.was, ht.entries.trans hr.entries, ht.nextEntry.trans hr.nextEntry,
    ht.sessions.trans hr.sessions, by rw [ht.notices, hr.notices, List.append_assoc]⟩

theorem Told.retyped {told more : List Notice} (ht : Told h h' told)
    (hr : Retyped h' h'' e entry et ptr more) : Retyped h h'' e entry et ptr (told ++ more) :=
  ⟨ht.entries ▸ hr.was, ht.entries ▸ hr.entries, hr.nextEntry.trans ht.nextEntry,
    hr.sessions.trans ht.sessions, by rw [hr.notices, ht.notices, List.append_assoc]⟩

theorem Retyped.directory {told : List Notice} (hr : Retyped h h' e entry et ptr told) :
    h'.directory = h.directory :=
  directory_update hr.was hr.entries rfl

theorem Retyped.self {told : List Notice} (hr : Retyped h h' e entry et ptr told) :
    h'.entries e = some { entry with type := et, resourcePtr := ptr } := by
  rw [hr.entries, Function.update_self]

theorem Retyped.other {told : List Notice} (hr : Retyped h h' e entry et ptr told)
    (hx : x ≠ e) : h'.entries x = h.entries x := by
  rw [hr.entries, Function.update_of_ne hx]

theorem retyped_modify (h : Hub) (e : EntryRef) (et : EntryType) (ptr : Option ResRef) :
    Returns (h.modifyEntry e fun entry => { entry with type := et, resourcePtr := ptr })
      fun h' => ∃ entry, Retyped h h' e entry et ptr [] := by
  refine Returns.of_ok fun h' hm => ?_
  obtain ⟨entry, he, rfl⟩ := modifyEntry_ok.mp hm
  exact ⟨entry, he, rfl, rfl, rfl, (List.append_nil _).symm⟩

theorem retyped_replaceResource (h : Hub) (e : EntryRef) (y : Resource) (et : EntryType) :
    Returns (replaceResource P h e y et) fun p =>
      ∃ entry, Retyped h p.1 e entry et (some p.2) [] := by
  unfold replaceResource
  refine Returns.skip fun entry => ?_
  refine Sat.bind (Q := Calm h) ?_ fun h₁ hc => ?_
  · have hset : Calm h { h.setResource h.nextRes y with nextRes := h.nextRes + 1 } :=
      ⟨rfl, rfl, rfl, rfl⟩
    unfold replaceResource.dispose
    split
    · exact hset.emit rfl
    · refine Returns.skip fun x => ?_
      exact (calm_resMoveAdminSettings (hset.emit rfl) _ _ _).bind fun h₂ hc₂ =>
        calm_releaseResource hc₂ _
  · refine (retyped_modify h₁ e et (some h.nextRes)).bind fun h₂ ht => ?_
    obtain ⟨entry, ht⟩ := ht
    exact ⟨entry, hc.told.retyped ht⟩

theorem told_treeChange (h : Hub) (e : EntryRef) (et : EntryType) (op : ResourceOperation) :
    Returns (callResourceTreeChangeHandlers P h e et op) fun h' =>
      ∃ path, NoticePath P h e path ∧ Told h h' [(path, et, op)] := by
  refine Returns.of_ok fun h' ht => ?_
  obtain ⟨path, hp, ht⟩ := bind_eq_ok.mp ht
  cases ht
  refine ⟨path.1, ⟨path.2, hp⟩, rfl, rfl, rfl, ?_⟩
  simp [Hub.notices, Hub.emit, Event.notice]

/-! ### Paths do not depend on the types -/

theorem getAbsolutePath_congr (hd : h'.directory = h.directory) (size fuel : Nat)
    (e : EntryRef) : getAbsolutePath P h' size fuel e = getAbsolutePath P h size fuel e := by
  induction fuel generalizing e with
  | zero => rfl
  | succ fuel ih =>
    unfold getAbsolutePath
    split
    · rfl
    · have hnode : (h'.entries e).map Entry.node = (h.entries e).map Entry.node := congrFun hd e
      unfold Hub.getEntry
      cases he' : h'.entries e with
      | none =>
        cases he : h.entries e with
        | none => rfl
        | some entry => simp [he', he] at hnode
      | some entry' =>
        cases he : h.entries e with
        | none => simp [he', he] at hnode
        | some entry =>
          rw [he', he, Option.map_some, Option.map_some, Option.some.injEq] at hnode
          have hparent : entry'.parentPtr = entry.parentPtr := congrArg DirNode.parent hnode
          have hname : entry'.name = entry.name := congrArg DirNode.name hnode
          simp only [ok_bind, hparent, hname, ih]

theorem NoticePath.congr {path : CString} (hp : NoticePath P h' e path)
    (hd : h'.directory = h.directory) : NoticePath P h e path := by
  obtain ⟨fits, hp⟩ := hp
  exact ⟨fits, getAbsolutePath_congr hd _ _ e ▸ hp⟩

/-! ### What every act keeps -/

/-- The names that lead from the root to the namespace of an app. -/
def clientNames (appName : CString) : List CString := ascii "app" :: pathElements appName

/-- What holds of the tree and of the saved namespaces, whatever is done. -/
structure TreeOk (P : Platform) (h : Hub) : Prop extends Searchable P h where
  rooted : h.directory.Rooted rootPtr
  entry_lt : ∀ e entry, h.entries e = some entry → e < h.nextEntry
  parent_lt : ∀ e entry parent, h.entries e = some entry → entry.parentPtr = some parent →
    parent < e
  nameSpace : ∀ e entry, h.entries e = some entry →
    (entry.type = .nameSpace ↔ entry.resourcePtr = none)

/-- The place of an entry, if it is there. -/
def At (h : Hub) (names : List CString) (e : EntryRef) : Prop :=
  h.directory e ≠ none → h.directory.Leads rootPtr names e

/-- A saved namespace that is still there is the one of the app. -/
def SessionsOk (P : Platform) (h : Hub) : Prop :=
  ∀ session ns, h.sessions session = some ns → ns < h.nextEntry ∧
    ∃ appName, P.appName session = some appName ∧ At h (clientNames appName) ns

theorem TreeOk.next_none (ht : TreeOk P h) : h.directory h.nextEntry = none := by
  cases hn : h.entries h.nextEntry with
  | none => simp [Hub.directory, hn]
  | some entry => exact absurd (ht.entry_lt _ _ hn) (Nat.lt_irrefl _)

theorem treeOk_boot (env : Environment) (files : List (CString × Bytes)) :
    TreeOk P (boot env files) := by
  have hroot : ∀ e entry, (boot env files).entries e = some entry → e = rootPtr ∧
      entry.parentPtr = none ∧ entry.type = .nameSpace ∧ entry.resourcePtr = none := by
    intro e entry he
    simp only [boot] at he
    split at he
    · next heq =>
      cases he
      exact ⟨heq, rfl, rfl, rfl⟩
    · cases he
  refine ⟨⟨directory_boot env files, isRoot_boot env files⟩, fun x hx => ?_, fun e entry he => ?_,
    fun e entry parent he hp => ?_, fun e entry he => ?_⟩
  · obtain ⟨entry, hx⟩ := entry_of_node hx
    obtain ⟨rfl, _⟩ := hroot x entry hx
    exact ⟨[], .here _⟩
  · obtain ⟨rfl, _⟩ := hroot e entry he
    exact Nat.zero_lt_one
  · rw [(hroot e entry he).2.1] at hp
    cases hp
  · obtain ⟨_, _, ht, hr⟩ := hroot e entry he
    rw [ht, hr]
    exact iff_of_true rfl rfl

theorem Retyped.treeOk {told : List Notice} (hr : Retyped h h' e entry et ptr told)
    (ht : TreeOk P h) (hns : et = .nameSpace ↔ ptr = none) : TreeOk P h' := by
  have hsplit : ∀ x entry', h'.entries x = some entry' →
      (x = e ∧ entry' = { entry with type := et, resourcePtr := ptr }) ∨
        h.entries x = some entry' := by
    intro x entry' hx
    by_cases hxe : x = e
    · subst hxe
      rw [hr.self] at hx
      exact .inl ⟨rfl, (Option.some.inj hx).symm⟩
    · exact .inr (hr.other hxe ▸ hx)
  refine ⟨⟨hr.directory ▸ ht.directory, hr.directory ▸ ht.root⟩, hr.directory ▸ ht.rooted,
    fun x entry' hx => ?_, fun x entry' parent hx hp => ?_, fun x entry' hx => ?_⟩
  · rw [hr.nextEntry]
    rcases hsplit x entry' hx with ⟨rfl, _⟩ | hx
    · exact ht.entry_lt _ _ hr.was
    · exact ht.entry_lt _ _ hx
  · rcases hsplit x entry' hx with ⟨rfl, rfl⟩ | hx
    · exact ht.parent_lt _ _ _ hr.was hp
    · exact ht.parent_lt _ _ _ hx hp
  · rcases hsplit x entry' hx with ⟨rfl, rfl⟩ | hx
    · exact hns
    · exact ht.nameSpace _ _ hx

theorem Calm.treeOk (hc : Calm h h') (ht : TreeOk P h) : TreeOk P h' := by
  have hd := directory_congr hc.entries
  refine ⟨⟨hd ▸ ht.directory, hd ▸ ht.root⟩, hd ▸ ht.rooted, ?_, ?_, ?_⟩
  · rw [hc.entries, hc.nextEntry]
    exact ht.entry_lt
  · rw [hc.entries]
    exact ht.parent_lt
  · rw [hc.entries]
    exact ht.nameSpace

/-- An entry that has just been created. -/
def newEntry (parent : EntryRef) (name : CString) : Entry where
  parentPtr := some parent
  name
  childList := []
  type := .nameSpace
  resourcePtr := none
  refCount := 1

/-- The new entry and its parent, after `AddChild`. -/
theorem addChild_entries {parent : EntryRef} {name : CString}
    (ha : addChild P h parent name = .ok (h', c)) (hname : LegalName P name) :
    ∃ p, h.entries parent = some p ∧ c = h.nextEntry ∧ h'.nextEntry = h.nextEntry + 1 ∧
      h'.sessions = h.sessions ∧ h'.log = h.log ∧ h'.entries = Function.update
        (Function.update h.entries parent (some { p with
          refCount := p.refCount + 1, childList := p.childList ++ [c] }))
        c (some (newEntry parent name)) := by
  obtain ⟨p, hp, hc, hh⟩ := (addChild_frame h parent name).result ha
  dsimp only at hc hh
  subst hc hh
  refine ⟨p, hp, rfl, rfl, rfl, rfl, ?_⟩
  simp [leUtf8Copy, hname.2.1, newEntry]

theorem addChild_cases {parent : EntryRef} {name : CString} {entry' : Entry}
    (ha : addChild P h parent name = .ok (h', c)) (hname : LegalName P name)
    (hx : h'.entries x = some entry') :
    (x = c ∧ entry' = newEntry parent name) ∨
    (x ≠ c ∧ x = parent ∧ ∃ p, h.entries parent = some p ∧
      entry' = { p with refCount := p.refCount + 1, childList := p.childList ++ [c] }) ∨
    x ≠ c ∧ x ≠ parent ∧ h.entries x = some entry' := by
  obtain ⟨p, hp, _, _, _, _, hent⟩ := addChild_entries ha hname
  rw [hent] at hx
  by_cases hxc : x = c
  · subst hxc
    rw [Function.update_self] at hx
    exact .inl ⟨rfl, (Option.some.inj hx).symm⟩
  · rw [Function.update_of_ne hxc] at hx
    by_cases hxp : x = parent
    · subst hxp
      rw [Function.update_self] at hx
      exact .inr (.inl ⟨hxc, rfl, p, hp, (Option.some.inj hx).symm⟩)
    · rw [Function.update_of_ne hxp] at hx
      exact .inr (.inr ⟨hxc, hxp, hx⟩)

theorem addChild_step {parent : EntryRef} {name : CString} (ht : TreeOk P h)
    (ha : addChild P h parent name = .ok (h', c)) (hname : LegalName P name)
    (hnew : resTreeFindChild h parent name = .ok none) :
    Directory.Step (LegalName P) h.directory h'.directory := by
  obtain ⟨p, hp, rfl, hdir⟩ := directory_addChild ha hname
  rw [hdir]
  refine .add (directory_of_entry hp) ht.next_none hname ?_
  intro q m hq hm
  obtain ⟨child, hchild, rfl⟩ := Option.map_eq_some_iff.mp hm
  exact findChild_none hnew hp q hq child hchild

theorem addChild_treeOk {parent : EntryRef} {name : CString} (ht : TreeOk P h)
    (ha : addChild P h parent name = .ok (h', c)) (hname : LegalName P name)
    (hnew : resTreeFindChild h parent name = .ok none) : TreeOk P h' := by
  have hs := addChild_step ht ha hname hnew
  obtain ⟨p, hp, rfl, hnext, _⟩ := addChild_entries ha hname
  have hparent := ht.entry_lt _ _ hp
  refine ⟨⟨ht.directory.step hs, ht.root.step hs⟩, ht.rooted.step ht.directory hs,
    fun x entry' hx => ?_, fun x entry' q hx hq => ?_, fun x entry' hx => ?_⟩
  · rw [hnext]
    rcases addChild_cases ha hname hx with ⟨rfl, _⟩ | ⟨_, rfl, _⟩ | ⟨_, _, hx⟩
    · exact Nat.lt_succ_self _
    · exact Nat.lt_succ_of_lt hparent
    · exact Nat.lt_succ_of_lt (ht.entry_lt _ _ hx)
  · rcases addChild_cases ha hname hx with ⟨rfl, rfl⟩ | ⟨_, rfl, p', hp', rfl⟩ | ⟨_, _, hx⟩
    · cases hq
      exact hparent
    · exact ht.parent_lt _ _ _ hp' hq
    · exact ht.parent_lt _ _ _ hx hq
  · rcases addChild_cases ha hname hx with ⟨rfl, rfl⟩ | ⟨_, rfl, p', hp', rfl⟩ | ⟨_, _, hx⟩
    · exact iff_of_true rfl rfl
    · have hns := ht.nameSpace _ _ hp'
      exact hns
    · exact ht.nameSpace _ _ hx

/-- The tree without an entry that has no children. -/
theorem destroyed_treeOk {p : Entry} {parent : EntryRef} (ht : TreeOk P h)
    (he : h.entries e = some entry) (hp : h.entries parent = some p)
    (hparent : entry.parentPtr = some parent) (hleaf : entry.childList = []) :
    TreeOk P (h.destroyed parent e p) := by
  have hstep : Directory.Step (LegalName P) h.directory (h.destroyed parent e p).directory := by
    rw [directory_destroyed]
    exact .remove (directory_of_entry hp) (directory_of_entry he) hparent hleaf
  have hold : ∀ x entry', (h.destroyed parent e p).entries x = some entry' →
      ∃ was, h.entries x = some was ∧ entry'.parentPtr = was.parentPtr ∧
        entry'.type = was.type ∧ entry'.resourcePtr = was.resourcePtr := by
    intro x entry' hx
    by_cases hxp : x = parent
    · subst hxp
      rw [destroyed_self (Nat.ne_of_lt (ht.parent_lt _ _ _ he hparent))] at hx
      cases hx
      exact ⟨p, hp, rfl, rfl, rfl⟩
    · exact ⟨entry', (destroyed_other hxp hx).2, rfl, rfl, rfl⟩
  refine ⟨⟨ht.directory.step hstep, ht.root.step hstep⟩, ht.rooted.step ht.directory hstep,
    fun x entry' hx => ?_, fun x entry' q hx hq => ?_, fun x entry' hx => ?_⟩
  · obtain ⟨was, hx, _⟩ := hold x entry' hx
    exact ht.entry_lt _ _ hx
  · obtain ⟨was, hx, hparent', _⟩ := hold x entry' hx
    exact ht.parent_lt _ _ _ hx (hparent'.symm.trans hq)
  · obtain ⟨was, hx, _, htype, hres⟩ := hold x entry' hx
    rw [htype, hres]
    exact ht.nameSpace _ _ hx

theorem releaseEntry_treeOk {fuel : Nat} (ht : TreeOk P h)
    (hrel : releaseEntry fuel h e = .ok h') : TreeOk P h' := by
  have hrem := (removals_releaseEntry fuel h e).result hrel
  have hsteps := (dirSteps_releaseEntry (P := P) fuel h e).result hrel
  have hframe := (releaseEntry_frame fuel h e).result hrel
  refine ⟨⟨ht.directory.steps hsteps, ht.root.steps hsteps⟩, ht.rooted.steps ht.directory hsteps,
    fun x entry' hx => ?_, fun x entry' q hx hq => ?_, fun x entry' hx => ?_⟩
  · obtain ⟨entry, hx, _⟩ := hframe.kept x entry' hx
    rw [hframe.nextEntry]
    exact ht.entry_lt _ _ hx
  · obtain ⟨n, hn, hparent, _⟩ := Directory.node_removals hrem (directory_of_entry hx)
    obtain ⟨entry, hx, rfl⟩ := Option.map_eq_some_iff.mp hn
    exact ht.parent_lt _ _ _ hx (hparent.symm.trans hq)
  · obtain ⟨entry, hx, htype, hres⟩ := hframe.kept x entry' hx
    rw [htype, hres]
    exact ht.nameSpace _ _ hx

theorem TreeStep.treeOk {act : Act} (hs : TreeStep P h act h') (ht : TreeOk P h) :
    TreeOk P h' := by
  cases hs with
  | create ha hname hnew => exact addChild_treeOk ht ha hname hnew
  | settle _ hr => exact hr.treeOk ht (by simp)
  | add _ het _ hr =>
    refine hr.treeOk ht ⟨?_, by simp⟩
    rintro rfl
    cases het
  | unplug _ _ hr => exact hr.treeOk ht (by simp)
  | free _ _ hr hrel => exact releaseEntry_treeOk (hr.treeOk ht (by simp)) hrel
  | cache => exact ⟨⟨ht.directory, ht.root⟩, ht.rooted, ht.entry_lt, ht.parent_lt, ht.nameSpace⟩

/-- What is still there is where it was. -/
theorem TreeStep.leads {act : Act} (hs : TreeStep P h act h') (ht : TreeOk P h)
    (hx : h'.directory x ≠ none) (hl : h.directory.Leads e names x) :
    h'.directory.Leads e names x := by
  cases hs with
  | create ha hname _ =>
    obtain ⟨p, hp, rfl, hdir⟩ := directory_addChild ha hname
    rw [hdir]
    exact hl.add (directory_of_entry hp) ht.next_none
  | settle _ hr => exact hr.directory ▸ hl
  | add _ _ _ hr => exact hr.directory ▸ hl
  | unplug _ _ hr => exact hr.directory ▸ hl
  | free _ _ hr hrel =>
    have hrem := (removals_releaseEntry _ _ _).result hrel
    rw [← hr.directory] at hl
    have hok := ht.directory
    rw [← hr.directory] at hok
    exact (Directory.leads_removals hok hrem hx).2 e names hl
  | cache => exact hl

theorem TreeStep.leads_back {act : Act} (hs : TreeStep P h act h') (ht : TreeOk P h)
    (hl : h'.directory.Leads rootPtr names x) (hx : h.directory x ≠ none) :
    h.directory.Leads rootPtr names x := by
  have ht' := hs.treeOk ht
  obtain ⟨names', hl'⟩ := ht.rooted x hx
  have hl'' := hs.leads ht (hl.exists_node ht'.exists_root) hl'
  rwa [ht'.directory.leads_names ht'.root hl hl'']

/-- An entry below the root has a parent. -/
theorem TreeOk.parent_of_leads {name : CString} (ht : TreeOk P h)
    (hl : h.directory.Leads rootPtr (name :: names) x) (hx : h.entries x = some entry) :
    entry.parentPtr ≠ none := by
  rcases List.eq_nil_or_concat (name :: names) with hnil | ⟨init, last, heq⟩
  · cases hnil
  · rw [heq, List.concat_eq_append] at hl
    obtain ⟨p, m, _, hm, hparent, _⟩ := ht.directory.leads_last hl
    cases (directory_of_entry hx).symm.trans hm
    rw [show entry.parentPtr = some p from hparent]
    simp

theorem TreeStep.nextEntry {act : Act} (hs : TreeStep P h act h') :
    h.nextEntry ≤ h'.nextEntry := by
  cases hs with
  | create ha hname =>
    obtain ⟨_, _, _, hnext, _⟩ := addChild_entries ha hname
    exact hnext ▸ Nat.le_succ _
  | settle _ hr => exact Nat.le_of_eq hr.nextEntry.symm
  | add _ _ _ hr => exact Nat.le_of_eq hr.nextEntry.symm
  | unplug _ _ hr => exact Nat.le_of_eq hr.nextEntry.symm
  | free _ _ hr hrel =>
    rw [((releaseEntry_frame _ _ _).result hrel).nextEntry, hr.nextEntry]
  | cache => exact Nat.le_refl _

theorem Retyped.old {told : List Notice} (hr : Retyped h h' e entry et ptr told)
    (hx : h.entries x = none) : h'.entries x = none := by
  rw [hr.other ?_, hx]
  rintro rfl
  cases hx.symm.trans hr.was

/-- Only a new entry has not been there before. -/
theorem TreeStep.fresh {act : Act} (hs : TreeStep P h act h') (hx : h'.entries x = some entry)
    (hold : h.entries x = none) :
    ∃ parent name, act = .create parent name ∧ entry = newEntry parent name := by
  cases hs with
  | @create parent _ name _ ha hname =>
    rcases addChild_cases ha hname hx with ⟨_, rfl⟩ | ⟨_, rfl, p, hp, _⟩ | ⟨_, _, hx⟩
    · exact ⟨parent, name, rfl, rfl⟩
    · cases hold.symm.trans hp
    · cases hold.symm.trans hx
  | settle _ hr => cases (hr.old hold).symm.trans hx
  | add _ _ _ hr => cases (hr.old hold).symm.trans hx
  | unplug _ _ hr => cases (hr.old hold).symm.trans hx
  | free _ _ hr hrel =>
    obtain ⟨was, hwas, _⟩ := ((releaseEntry_frame _ _ _).result hrel).kept x entry hx
    cases (hr.old hold).symm.trans hwas
  | cache => cases hold.symm.trans hx

/-- Entries are not created twice. -/
theorem TreeStep.old {act : Act} (hs : TreeStep P h act h') (hx : h'.directory x ≠ none)
    (hlt : x < h.nextEntry) : h.directory x ≠ none := by
  cases hs with
  | create ha hname =>
    obtain ⟨entry', hx'⟩ := entry_of_node hx
    obtain ⟨_, _, rfl, _⟩ := addChild_entries ha hname
    rcases addChild_cases ha hname hx' with ⟨rfl, _⟩ | ⟨_, rfl, p, hp, _⟩ | ⟨_, _, hx'⟩
    · exact absurd hlt (Nat.lt_irrefl _)
    · simp [directory_of_entry hp]
    · simp [directory_of_entry hx']
  | settle _ hr => exact hr.directory ▸ hx
  | add _ _ _ hr => exact hr.directory ▸ hx
  | unplug _ _ hr => exact hr.directory ▸ hx
  | free _ _ hr hrel =>
    obtain ⟨entry', hx'⟩ := entry_of_node hx
    obtain ⟨entry, hx', _⟩ := ((releaseEntry_frame _ _ _).result hrel).kept x entry' hx'
    rw [← hr.directory]
    simp [directory_of_entry hx']
  | cache => exact hx

theorem TreeStep.sessions {act : Act} (hs : TreeStep P h act h') (ht : TreeOk P h)
    (hsess : SessionsOk P h)
    (hcache : ∀ session ns, act = .cache session (some ns) → ∃ appName,
      P.appName session = some appName ∧ h.directory.Leads rootPtr (clientNames appName) ns) :
    SessionsOk P h' := by
  intro session ns hns
  have hkept : h.sessions session = some ns → ns < h'.nextEntry ∧
      ∃ appName, P.appName session = some appName ∧ At h' (clientNames appName) ns := by
    intro hns
    obtain ⟨hlt, appName, happ, hat⟩ := hsess session ns hns
    exact ⟨Nat.lt_of_lt_of_le hlt hs.nextEntry, appName, happ,
      fun hx => hs.leads ht hx (hat (hs.old hx hlt))⟩
  cases hs with
  | create ha hname =>
    obtain ⟨_, _, _, _, hsess', _⟩ := addChild_entries ha hname
    exact hkept (hsess' ▸ hns)
  | settle _ hr => exact hkept (hr.sessions ▸ hns)
  | add _ _ _ hr => exact hkept (hr.sessions ▸ hns)
  | unplug _ _ hr => exact hkept (hr.sessions ▸ hns)
  | free _ _ hr hrel =>
    refine hkept ?_
    rw [← hr.sessions, ← ((releaseEntry_frame _ _ _).result hrel).sessions]
    exact hns
  | cache session' ns' =>
    by_cases heq : session = session'
    · subst heq
      dsimp only at hns
      rw [Function.update_self] at hns
      obtain ⟨appName, happ, hl⟩ := hcache session ns (by rw [hns])
      obtain ⟨entry, he⟩ := entry_of_node (hl.exists_node ht.exists_root)
      exact ⟨ht.entry_lt _ _ he, appName, happ, fun _ => hl⟩
    · dsimp only at hns
      rw [Function.update_of_ne heq] at hns
      exact hkept hns

/-- The acts save the right namespaces only. -/
def Caches (P : Platform) (L : Hub → Act → Prop) : Prop :=
  ∀ h session ns, L h (.cache session (some ns)) → ∃ appName, P.appName session = some appName ∧
    h.directory.Leads rootPtr (clientNames appName) ns

/-- The induction over the acts of a run. -/
theorem treeRun_induction {Q : Hub → Prop} (hL : Caches P L) (hb : TreeOk P b)
    (hsess : SessionsOk P b) (hq : Q b) (hcalm : ∀ h h', TreeOk P h → Q h → Calm h h' → Q h')
    (hact : ∀ h act h', TreeOk P h → SessionsOk P h → Q h → TreeStep P h act h' → L h act → Q h')
    (hr : TreeRun P L b h) : TreeOk P h ∧ SessionsOk P h ∧ Q h := by
  induction hr with
  | refl => exact ⟨hb, hsess, hq⟩
  | tail _ hm ih =>
    obtain ⟨ht, hsess, hq⟩ := ih
    rcases hm with hc | ⟨act, hs, hl⟩
    · refine ⟨hc.treeOk ht, ?_, hcalm _ _ ht hq hc⟩
      unfold SessionsOk At
      rw [hc.sessions, hc.nextEntry, directory_congr hc.entries]
      exact hsess
    · refine ⟨hs.treeOk ht, hs.sessions ht hsess fun session ns heq => ?_,
        hact _ _ _ ht hsess hq hs hl⟩
      subst heq
      exact hL _ _ _ hl

theorem TreeRun.treeOk (hr : TreeRun P L b h) (hb : TreeOk P b) : TreeOk P h := by
  induction hr with
  | refl => exact hb
  | tail _ hm ih =>
    rcases hm with hc | ⟨act, hs, _⟩
    · exact hc.treeOk ih
    · exact hs.treeOk ih

end MangOH.DataHub
