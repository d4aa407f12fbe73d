import MangOH.DataHub.AbsolutePaths
import Mathlib.Tactic.FinCases

/-! What the handlers for changes of the tree are told, and the Inputs, Outputs and Observations
that are there. -/
namespace MangOH.DataHub

open Outcome

variable {P : Platform} {op : Op} {b h h' : Hub} {e x : EntryRef} {entry : Entry}
  {names names' : List CString} {et et' : EntryType} {act : Act} {told : List Notice}
  {ptr : Option ResRef}

/-- An absolute path, and the type of what is there. -/
abbrev Item := CString × EntryType

/-- The items that a handler is left with which adds what it is told has been added, and removes
what it is told has been removed. -/
def replay : List Notice → List Item :=
  List.foldl (fun items notice =>
    match notice with
    | (path, et, .added) => (path, et) :: items
    | (path, et, .removed) => items.filter (· ≠ (path, et))) []

theorem replay_added (notices : List Notice) (path : CString) (et : EntryType) :
    replay (notices ++ [(path, et, .added)]) = (path, et) :: replay notices := by
  simp [replay]

theorem replay_removed (notices : List Notice) (path : CString) (et : EntryType) :
    replay (notices ++ [(path, et, .removed)]) =
      (replay notices).filter (· ≠ (path, et)) := by
  simp [replay]

/-- An Input, Output or Observation is where the names lead from the root. -/
structure Shown (h : Hub) (names : List CString) (e : EntryRef) (et : EntryType) : Prop where
  leads : h.directory.Leads rootPtr names e
  entry : ∃ entry, h.entries e = some entry ∧ entry.type = et
  special : et.special = true

/-- The items of the tree. -/
def Hub.Shows (h : Hub) (item : Item) : Prop :=
  ∃ names e, Shown h names e item.2 ∧ item.1 = pathOf names

/-! ### What acts do to the items -/

theorem Shown.calm (hs : Shown h names e et) (hc : Calm h h') : Shown h' names e et :=
  ⟨directory_congr hc.entries ▸ hs.leads, hc.entries ▸ hs.entry, hs.special⟩

theorem Calm.symm (hc : Calm h h') : Calm h' h :=
  ⟨hc.entries.symm, hc.nextEntry.symm, hc.sessions.symm, hc.notices.symm⟩

theorem shown_calm (hc : Calm h h') : Shown h' names e et ↔ Shown h names e et :=
  ⟨fun hs => hs.calm hc.symm, fun hs => hs.calm hc⟩

/-- An entry that gets another type is shown with it, if at all. -/
theorem shown_retyped (hr : Retyped h h' e entry et ptr told) :
    Shown h' names x et' ↔
      (x = e ∧ et' = et ∧ et.special = true ∧ h.directory.Leads rootPtr names e) ∨
        x ≠ e ∧ Shown h names x et' := by
  have hd := hr.directory
  constructor
  · rintro ⟨hl, ⟨entry', hx, rfl⟩, hs⟩
    rw [hd] at hl
    by_cases hxe : x = e
    · subst hxe
      cases hr.self.symm.trans hx
      exact .inl ⟨rfl, rfl, hs, hl⟩
    · exact .inr ⟨hxe, hl, ⟨entry', hr.other hxe ▸ hx, rfl⟩, hs⟩
  · rintro (⟨rfl, rfl, hs, hl⟩ | ⟨hxe, hl, ⟨entry', hx, rfl⟩, hs⟩)
    · exact ⟨hd ▸ hl, ⟨_, hr.self, rfl⟩, hs⟩
    · exact ⟨hd ▸ hl, ⟨entry', (hr.other hxe).symm ▸ hx, rfl⟩, hs⟩

/-- The release of an entry does not touch the items. -/
theorem shown_release {fuel : Nat} (ht : TreeOk P h) (hrel : releaseEntry fuel h e = .ok h') :
    Shown h' names x et ↔ Shown h names x et := by
  have hrem := (removals_releaseEntry fuel h e).result hrel
  have hframe := (releaseEntry_frame fuel h e).result hrel
  have ht' := releaseEntry_treeOk ht hrel
  constructor
  · rintro ⟨hl, ⟨entry', hx, rfl⟩, hs⟩
    obtain ⟨entry, hx₀, htype, _⟩ := hframe.kept x entry' hx
    obtain ⟨names', hl'⟩ := ht.rooted x (by simp [directory_of_entry hx₀])
    have hl'' := (Directory.leads_removals ht.directory hrem
      (by simp [directory_of_entry hx])).2 _ _ hl'
    rw [ht'.directory.leads_names ht'.root hl hl'']
    exact ⟨hl', ⟨entry, hx₀, htype.symm⟩, hs⟩
  · rintro ⟨hl, ⟨entry, hx, rfl⟩, hs⟩
    have hres : entry.resourcePtr.isSome := by
      cases hr : entry.resourcePtr with
      | some => rfl
      | none =>
        rw [(ht.nameSpace x entry hx).mpr hr] at hs
        cases hs
    obtain ⟨entry', hx', htype, _⟩ := hframe.attached x entry hx hres
    exact ⟨(Directory.leads_removals ht.directory hrem (by simp [directory_of_entry hx'])).2 _ _ hl,
      ⟨entry', hx', htype⟩, hs⟩

/-- A new entry is a Namespace. -/
theorem shown_create {parent c : EntryRef} {name : CString} (ht : TreeOk P h)
    (ha : addChild P h parent name = .ok (h', c)) (hname : LegalName P name)
    (hnew : resTreeFindChild h parent name = .ok none) :
    Shown h' names x et ↔ Shown h names x et := by
  have hstep := TreeStep.create ha hname hnew
  constructor
  · rintro ⟨hl, ⟨entry', hx, rfl⟩, hs⟩
    rcases addChild_cases ha hname hx with ⟨_, rfl⟩ | ⟨_, rfl, p, hp, rfl⟩ | ⟨_, _, hx⟩
    · cases hs
    · exact ⟨hstep.leads_back ht hl (by simp [directory_of_entry hp]), ⟨p, hp, rfl⟩, hs⟩
    · exact ⟨hstep.leads_back ht hl (by simp [directory_of_entry hx]), ⟨entry', hx, rfl⟩, hs⟩
  · rintro ⟨hl, ⟨entry, hx, rfl⟩, hs⟩
    obtain ⟨p, hp, rfl, _, _, _, hent⟩ := addChild_entries ha hname
    have hxc : x ≠ h.nextEntry := Nat.ne_of_lt (ht.entry_lt _ _ hx)
    obtain ⟨entry', hx', htype⟩ : ∃ entry', h'.entries x = some entry' ∧
        entry'.type = entry.type := by
      rw [hent, Function.update_of_ne hxc]
      by_cases hxp : x = parent
      · subst hxp
        cases hp.symm.trans hx
        exact ⟨_, Function.update_self .., rfl⟩
      · exact ⟨entry, by rw [Function.update_of_ne hxp, hx], rfl⟩
    exact ⟨hstep.leads ht (by simp [directory_of_entry hx']) hl, ⟨entry', hx', htype⟩, hs⟩

/-- What is shown after an act has been there before, or has just been added. -/
theorem shown_act (ht : TreeOk P h) (hs : TreeStep P h act h') (hx : Shown h' names x et) :
    Shown h names x et ∨ act = .add x et ∧ h.directory.Leads rootPtr names x := by
  cases hs with
  | create ha hname hnew => exact .inl ((shown_create ht ha hname hnew).mp hx)
  | settle _ hr =>
    rcases (shown_retyped hr).mp hx with ⟨_, _, hs, _⟩ | ⟨_, hx⟩
    · cases hs
    · exact .inl hx
  | add _ _ _ hr =>
    rcases (shown_retyped hr).mp hx with ⟨rfl, rfl, _, hl⟩ | ⟨_, hx⟩
    · exact .inr ⟨rfl, hl⟩
    · exact .inl hx
  | unplug _ _ hr =>
    rcases (shown_retyped hr).mp hx with ⟨_, _, hs, _⟩ | ⟨_, hx⟩
    · cases hs
    · exact .inl hx
  | free _ _ hr hrel =>
    rcases (shown_retyped hr).mp ((shown_release (hr.treeOk ht (by simp)) hrel).mp hx) with
      ⟨_, _, hs, _⟩ | ⟨_, hx⟩
    · cases hs
    · exact .inl hx
  | cache => exact .inl ⟨hx.leads, hx.entry, hx.special⟩

/-- Two items with one path are one. -/
theorem shown_unique (hs : Searchable P h) (hx : Shown h names x et) (he : Shown h names' e et')
    (heq : pathOf names = pathOf names') : x = e ∧ et = et' := by
  cases pathOf_injective hs hx.leads he.leads heq
  obtain ⟨entry, hentry, rfl⟩ := hx.entry
  obtain ⟨entry', hentry', rfl⟩ := he.entry
  cases hentry.symm.trans hentry'
  exact ⟨rfl, rfl⟩

/-! ### The mirror -/

/-- The name below the root under which resources of a type are created. -/
def placeOf : EntryType → CString
  | .observation => ascii "obs"
  | _ => ascii "app"

/-- A handler that has been told everything knows the items. -/
structure Mirrored (h : Hub) : Prop where
  replayed : ∀ item, item ∈ replay h.notices ↔ h.Shows item
  removals : ∀ before path et after, h.notices = before ++ (path, et, .removed) :: after →
    (path, et) ∈ replay before
  fits : ∀ names e et, Shown h names e et → (pathOf names).length ≤ ioMaxResourcePathLen
  place : ∀ names e et, Shown h names e et → names.head? = some (placeOf et)

/-- The operation creates no resource whose path does not fit the buffer for it, and deletes no
Placeholder and no Namespace as if it were an Observation. -/
structure AnnouncesWell (P : Platform) (b : Hub) (op : Op) : Prop where
  fits : ∀ et names, op.creates = some et → Goal P op names → (∀ name ∈ names, LegalName P name) →
    (pathOf names).length ≤ ioMaxResourcePathLen
  deletes : ∀ path e entry, op = .adminDeleteObs path → FoundUnderObs b path e →
    b.entries e = some entry → entry.type ≠ .placeholder ∧ entry.type ≠ .nameSpace

theorem goal_place (hop : op.creates = some et) (hg : Goal P op names) :
    names.head? = some (placeOf et) := by
  cases hg with
  | client hclient => cases op <;> cases hclient <;> cases hop <;> rfl
  | resource hmem => cases op <;> first | exact absurd hmem List.not_mem_nil | cases hop
  | observation hobs => cases op <;> cases hobs <;> cases hop <;> rfl

theorem Mirrored.same (hm : Mirrored h) (hn : h'.notices = h.notices)
    (hshown : ∀ names x et, Shown h' names x et ↔ Shown h names x et) : Mirrored h' := by
  refine ⟨fun item => ?_, hn ▸ hm.removals, fun names x et hx => ?_, fun names x et hx => ?_⟩
  · rw [hn, hm.replayed]
    unfold Hub.Shows
    simp only [hshown]
  · exact hm.fits names x et ((hshown names x et).mp hx)
  · exact hm.place names x et ((hshown names x et).mp hx)

/-- The last notice is the new one, or the split is of the old ones. -/
theorem split_append_singleton {before after notices : List Notice} {notice new : Notice}
    (heq : notices ++ [new] = before ++ notice :: after) :
    (before = notices ∧ notice = new) ∨ ∃ after', notices = before ++ notice :: after' := by
  rcases List.eq_nil_or_concat after with rfl | ⟨init, last, rfl⟩
  · obtain ⟨rfl, hnew⟩ := List.append_inj' heq rfl
    exact .inl ⟨rfl, (List.singleton_inj.mp hnew).symm⟩
  · rw [List.concat_eq_append, ← List.cons_append, ← List.append_assoc] at heq
    exact .inr ⟨init, (List.append_inj' heq rfl).1⟩

theorem Mirrored.added (hm : Mirrored h)
    (hn : h'.notices = h.notices ++ [(pathOf names, et, .added)])
    (hfits : (pathOf names).length ≤ ioMaxResourcePathLen)
    (hplace : names.head? = some (placeOf et)) (he : Shown h' names e et)
    (hshown : ∀ names' x et', Shown h' names' x et' ↔ Shown h names' x et' ∨
      x = e ∧ names' = names ∧ et' = et) : Mirrored h' := by
  refine ⟨fun item => ?_, ?_, fun names' x et' hx => ?_, fun names' x et' hx => ?_⟩
  · rw [hn, replay_added, List.mem_cons, hm.replayed]
    constructor
    · rintro (rfl | ⟨names', x, hx, hpath⟩)
      · exact ⟨names, e, he, rfl⟩
      · exact ⟨names', x, (hshown _ _ _).mpr (.inl hx), hpath⟩
    · rintro ⟨names', x, hx, hpath⟩
      rcases (hshown _ _ _).mp hx with hx | ⟨_, rfl, het⟩
      · exact .inr ⟨names', x, hx, hpath⟩
      · exact .inl (Prod.ext hpath het)
  · intro before path et' after heq
    rw [hn] at heq
    rcases split_append_singleton heq with ⟨_, hnotice⟩ | ⟨after', heq⟩
    · cases hnotice
    · exact hm.removals before path et' after' heq
  · rcases (hshown _ _ _).mp hx with hx | ⟨_, rfl, _⟩
    · exact hm.fits names' x et' hx
    · exact hfits
  · rcases (hshown _ _ _).mp hx with hx | ⟨_, rfl, rfl⟩
    · exact hm.place names' x et' hx
    · exact hplace

theorem Mirrored.removed (hm : Mirrored h) (hs : Searchable P h)
    (hn : h'.notices = h.notices ++ [(pathOf names, et, .removed)]) (he : Shown h names e et)
    (hshown : ∀ names' x et', Shown h' names' x et' ↔ x ≠ e ∧ Shown h names' x et') :
    Mirrored h' := by
  refine ⟨fun item => ?_, ?_, fun names' x et' hx => ?_, fun names' x et' hx => ?_⟩
  · rw [hn, replay_removed, List.mem_filter, hm.replayed]
    constructor
    · rintro ⟨⟨names', x, hx, hpath⟩, hne⟩
      refine ⟨names', x, (hshown _ _ _).mpr ⟨?_, hx⟩, hpath⟩
      rintro rfl
      have hnames := hs.directory.leads_names hs.root hx.leads he.leads
      subst hnames
      exact of_decide_eq_true hne (Prod.ext hpath (shown_unique hs hx he rfl).2)
    · rintro ⟨names', x, hx, hpath⟩
      obtain ⟨hne, hx⟩ := (hshown _ _ _).mp hx
      refine ⟨⟨names', x, hx, hpath⟩, decide_eq_true ?_⟩
      rintro rfl
      exact hne (shown_unique hs hx he hpath.symm).1
  · intro before path et' after heq
    rw [hn] at heq
    rcases split_append_singleton heq with ⟨rfl, hnotice⟩ | ⟨after', heq⟩
    · cases hnotice
      exact (hm.replayed _).mpr ⟨names, e, he, rfl⟩
    · exact hm.removals before path et' after' heq
  · exact hm.fits names' x et' ((hshown _ _ _).mp hx).2
  · exact hm.place names' x et' ((hshown _ _ _).mp hx).2

/-! ### What one act announces -/

/-- The path of an item leads to it. -/
def Carried (P : Platform) (h : Hub) (path : CString) (et : EntryType) : Prop :=
  ∃ names e, Shown h names e et ∧ path = pathOf names ∧
    resTreeFindEntryAtAbsolutePath P h path = .ok (some e)

theorem Mirrored.carried (hm : Mirrored h) (hs : Searchable P h) (he : Shown h names e et) :
    Carried P h (pathOf names) et := by
  refine ⟨names, e, he, rfl, ?_⟩
  cases names with
  | nil => cases hm.place [] e et he
  | cons name names => exact find_pathOf hs he.leads

/-- An act is silent and keeps the items, adds one, or removes one. -/
inductive Announces (h h' : Hub) (act : Act) : Prop
  | silent (hn : h'.notices = h.notices)
      (hshown : ∀ names x et, Shown h' names x et ↔ Shown h names x et)
  | adds {names : List CString} {e : EntryRef} {et : EntryType} (hact : act = .add e et)
      (hn : h'.notices = h.notices ++ [(pathOf names, et, .added)]) (he : Shown h' names e et)
      (hshown : ∀ names' x et', Shown h' names' x et' ↔ Shown h names' x et' ∨
        x = e ∧ names' = names ∧ et' = et)
  | removes {names : List CString} {e : EntryRef} {et : EntryType}
      (hact : act = .unplug e ∨ act = .free e et)
      (hn : h'.notices = h.notices ++ [(pathOf names, et, .removed)]) (he : Shown h names e et)
      (hshown : ∀ names' x et', Shown h' names' x et' ↔ x ≠ e ∧ Shown h names' x et')

/-- A resource that is deleted as one of a type is of that type. -/
theorem freed_type (hm : Mirrored h) (hok : AnnouncesWell P b op)
    (hl : Allowed P op b h (.free e et)) (he : h.entries e = some entry) :
    entry.type = et ∧ et.special = true := by
  cases hl with
  | freeIo _ _ _ he' hio =>
    cases he.symm.trans he'
    generalize entry.type = t at hio
    cases t <;> simp_all [EntryType.special, EntryType.isIo]
  | @freeObs _ path hop hbegin hf =>
    refine ⟨?_, rfl⟩
    have hplain := hok.deletes path e entry hop (hbegin ▸ hf) (hbegin ▸ he)
    obtain ⟨ns, hns, hl⟩ := hf
    have hleads : h.directory.Leads rootPtr (ascii "obs" :: pathElements path) e :=
      Directory.leads_append.mpr ⟨ns, hns, hl⟩
    have hplace := fun hs => hm.place _ e entry.type ⟨hleads, ⟨entry, he, rfl⟩, hs⟩
    generalize entry.type = t at hplain hplace
    cases t with
    | nameSpace => exact absurd rfl hplain.2
    | placeholder => exact absurd rfl hplain.1
    | input =>
      exact absurd (Option.some.inj (hplace rfl))
        (show ascii "obs" ≠ ascii "app" by decide)
    | output =>
      exact absurd (Option.some.inj (hplace rfl))
        (show ascii "obs" ≠ ascii "app" by decide)
    | observation => rfl

theorem announces_act (hm : Mirrored h) (ht : TreeOk P h) (hok : AnnouncesWell P b op)
    (hs : TreeStep P h act h') (hl : Allowed P op b h act) : Announces h h' act := by
  cases hs with
  | create ha hname hnew =>
    obtain ⟨_, _, _, _, _, hlog, _⟩ := addChild_entries ha hname
    exact .silent (by rw [Hub.notices, hlog, Hub.notices])
      fun names x et => shown_create ht ha hname hnew
  | @settle e r entry _ hns hr =>
    refine .silent (by rw [hr.notices, List.append_nil]) fun names x et => ?_
    rw [shown_retyped hr]
    refine ⟨?_, fun hx => .inr ⟨?_, hx⟩⟩
    · rintro (⟨_, _, hs, _⟩ | ⟨_, hx⟩)
      · cases hs
      · exact hx
    · rintro rfl
      obtain ⟨entry', hx', rfl⟩ := hx.entry
      cases hr.was.symm.trans hx'
      have hs := hx.special
      rw [hns] at hs
      cases hs
  | @add e et r entry path _ hplain het hp hr =>
    cases hl with
    | @add _ _ names hop hg hl =>
      have hfits := hok.fits et names hop hg (ht.directory.leads_legal hl)
      have hpath := noticePath_fits ht hl hfits hp
      subst hpath
      refine .adds rfl hr.notices ((shown_retyped hr).mpr (.inl ⟨rfl, rfl, het, hl⟩))
        fun names' x et' => ?_
      rw [shown_retyped hr]
      constructor
      · rintro (⟨rfl, rfl, _, hl'⟩ | ⟨_, hx⟩)
        · exact .inr ⟨rfl, ht.directory.leads_names ht.root hl' hl, rfl⟩
        · exact .inl hx
      · rintro (hx | ⟨rfl, rfl, rfl⟩)
        · refine .inr ⟨?_, hx⟩
          rintro rfl
          obtain ⟨entry', hx', rfl⟩ := hx.entry
          cases hr.was.symm.trans hx'
          exact Bool.noConfusion (hplain.symm.trans hx.special)
        · exact .inl ⟨rfl, rfl, het, hl⟩
  | @unplug e r entry path _ hio hp hr =>
    cases hl with
    | @unplug _ _ _ names hop hg hl =>
      have hs : entry.type.special = true := by
        generalize entry.type = t at hio
        cases t <;> simp_all [EntryType.special, EntryType.isIo]
      have he : Shown h names e entry.type := ⟨hl, ⟨entry, hr.was, rfl⟩, hs⟩
      have hpath := noticePath_fits ht hl (hm.fits _ _ _ he) hp
      subst hpath
      refine .removes (.inl rfl) hr.notices he fun names' x et' => ?_
      rw [shown_retyped hr]
      exact ⟨fun hx => hx.elim (fun hx => Bool.noConfusion hx.2.2.1) id, .inr⟩
  | @free e et r entry path h₁ _ hptr hp hr hrel =>
    obtain ⟨rfl, hs⟩ := freed_type hm hok hl hr.was
    obtain ⟨name, names, hleads⟩ := hl.below
    have he : Shown h (name :: names) e entry.type := ⟨hleads, ⟨entry, hr.was, rfl⟩, hs⟩
    have hpath := noticePath_fits ht hleads (hm.fits _ _ _ he) hp
    subst hpath
    have hlog := ((releaseEntry_frame _ _ _).result hrel).log
    refine .removes (.inr rfl) ?_ he fun names' x et' => ?_
    · rw [← hr.notices, Hub.notices, hlog, Hub.notices]
    · rw [shown_release (hr.treeOk ht (by simp)) hrel, shown_retyped hr]
      exact ⟨fun hx => hx.elim (fun hx => Bool.noConfusion hx.2.2.1) id, .inr⟩
  | cache => exact .silent rfl fun names x et => ⟨fun hx => ⟨hx.leads, hx.entry, hx.special⟩,
      fun hx => ⟨hx.leads, hx.entry, hx.special⟩⟩

theorem mirrored_act (hm : Mirrored h) (ht : TreeOk P h) (hok : AnnouncesWell P b op)
    (hs : TreeStep P h act h') (hl : Allowed P op b h act) : Mirrored h' := by
  cases announces_act hm ht hok hs hl with
  | silent hn hshown => exact hm.same hn hshown
  | @adds names e et hact hn he hshown =>
    subst hact
    cases hl with
    | add hop hg hl =>
      have hl' := hs.leads ht (he.leads.exists_node (hs.treeOk ht).exists_root) hl
      have hnames := (hs.treeOk ht).directory.leads_names (hs.treeOk ht).root hl' he.leads
      subst hnames
      exact hm.added hn (hok.fits et _ hop hg (ht.directory.leads_legal hl)) (goal_place hop hg) he
        hshown
  | removes _ hn he hshown => exact hm.removed ht.toSearchable hn he hshown

/-! ### Operations and runs -/

/-- The path that is announced leads to the entry: after the operation if a resource has been added
there, before it if one has been removed. -/
def Reported (P : Platform) (b h : Hub) : Notice → Prop
  | (path, et, .added) => Carried P h path et
  | (path, et, .removed) => Carried P b path et

/-- What an operation has announced so far. It does not both add and remove resources. -/
structure Reporting (P : Platform) (op : Op) (b h : Hub) : Prop where
  mirrored : Mirrored h
  told : ∃ told, h.notices = b.notices ++ told ∧ (∀ n ∈ told, Reported P b h n) ∧
    (op.creates = none → ∀ n ∈ told, n.2.2 = .removed)
  kept : op.creates = none → ∀ names e et, Shown h names e et → Shown b names e et

theorem removes_creates (hl : Allowed P op b h act) (hact : act = .unplug e ∨ act = .free e et) :
    op.creates = none := by
  rcases hact with rfl | rfl
  · cases hl with
    | unplug hop => rw [hop]; rfl
  · cases hl with
    | freeIo hop => rw [hop]; rfl
    | freeObs hop => rw [hop]; rfl

theorem Carried.mono {path : CString} (hc : Carried P h path et) (hm : Mirrored h')
    (hs : Searchable P h') (hshown : ∀ names x et, Shown h names x et → Shown h' names x et) :
    Carried P h' path et := by
  obtain ⟨names, e, he, rfl, _⟩ := hc
  exact hm.carried hs (hshown _ _ _ he)

theorem reporting_act (hb : TreeOk P b) (hmb : Mirrored b) (hr : Reporting P op b h)
    (ht : TreeOk P h) (hok : AnnouncesWell P b op) (hs : TreeStep P h act h')
    (hl : Allowed P op b h act) : Reporting P op b h' := by
  have hm' := mirrored_act hr.mirrored ht hok hs hl
  have hs' := (hs.treeOk ht).toSearchable
  obtain ⟨told, hn, htold, hremoved⟩ := hr.told
  have hkeep : (∀ names x et, Shown h names x et → Shown h' names x et) →
      ∀ n ∈ told, Reported P b h' n := by
    rintro hshown ⟨path, et, op | op⟩ hmem
    · exact (htold _ hmem : Carried P h path et).mono hm' hs' hshown
    · exact htold _ hmem
  cases announces_act hr.mirrored ht hok hs hl with
  | silent hn' hshown =>
    refine ⟨hm', ⟨told, hn'.trans hn, hkeep fun names x et => (hshown names x et).mpr, hremoved⟩,
      fun hop names x et hx => hr.kept hop names x et ((hshown names x et).mp hx)⟩
  | @adds names e et hact hn' he hshown =>
    have hop : op.creates ≠ none := by
      subst hact
      cases hl with
      | add hop => simp [hop]
    refine ⟨hm', ⟨told ++ [(pathOf names, et, .added)], ?_, ?_, fun hop' => absurd hop' hop⟩,
      fun hop' => absurd hop' hop⟩
    · rw [hn', hn, List.append_assoc]
    · intro n hmem
      rcases List.mem_append.mp hmem with hmem | hmem
      · exact hkeep (fun names x et hx => (hshown names x et).mpr (.inl hx)) n hmem
      · rw [List.mem_singleton.mp hmem]
        exact hm'.carried hs' he
  | @removes names e et hact hn' he hshown =>
    have hop := removes_creates hl hact
    have hall : ∀ n ∈ told ++ [(pathOf names, et, .removed)], n.2.2 = .removed ∧
        Carried P b n.1 n.2.1 := by
      rintro ⟨path, et', operation⟩ hmem
      rcases List.mem_append.mp hmem with hmem | hmem
      · cases hremoved hop _ hmem
        exact ⟨rfl, htold _ hmem⟩
      · cases List.mem_singleton.mp hmem
        exact ⟨rfl, hmb.carried hb.toSearchable (hr.kept hop _ _ _ he)⟩
    refine ⟨hm', ⟨told ++ [(pathOf names, et, .removed)], ?_, ?_, fun _ n hmem => (hall n hmem).1⟩,
      fun _ names x et hx => hr.kept hop names x et ((hshown names x et).mp hx).2⟩
    · rw [hn', hn, List.append_assoc]
    · rintro ⟨path, et', operation⟩ hmem
      obtain ⟨heq, hcarried⟩ := hall _ hmem
      dsimp only at heq
      subst heq
      exact hcarried

theorem reporting_run (hb : TreeOk P b) (hsess : SessionsOk P b) (hm : Mirrored b)
    (hok : AnnouncesWell P b op) (hr : TreeRun P (Allowed P op b) b h) : Reporting P op b h := by
  refine (treeRun_induction (Q := Reporting P op b) caches_allowed hb hsess ?_ ?_ ?_ hr).2.2
  · exact ⟨hm, ⟨[], (List.append_nil _).symm, by simp, by simp⟩, fun _ _ _ _ hx => hx⟩
  · intro h h' ht hr hc
    have hm' := hr.mirrored.same hc.notices fun names x et => shown_calm hc
    have hs' := (hc.treeOk ht).toSearchable
    obtain ⟨told, hn, htold, hremoved⟩ := hr.told
    refine ⟨hm', ⟨told, hc.notices.trans hn, ?_, hremoved⟩,
      fun hop names x et hx => hr.kept hop names x et ((shown_calm hc).mp hx)⟩
    rintro ⟨path, et, op | op⟩ hmem
    · exact (htold _ hmem : Carried P h path et).mono hm' hs' fun _ _ _ hx => hx.calm hc
    · exact htold _ hmem
  · exact fun h act h' ht _ hr hs hl => reporting_act hb hm hr ht hok hs hl

theorem mirrored_boot (env : Environment) (files : List (CString × Bytes)) :
    Mirrored (boot env files) := by
  have hnone : ∀ names e et, ¬ Shown (boot env files) names e et := by
    rintro names e et ⟨_, ⟨entry, he, rfl⟩, hs⟩
    simp only [boot] at he
    split at he
    · cases he
      cases hs
    · cases he
  refine ⟨fun item => ⟨fun hi => absurd hi List.not_mem_nil, ?_⟩,
    fun before path et after heq => ?_,
    fun names e et hx => absurd hx (hnone names e et),
    fun names e et hx => absurd hx (hnone names e et)⟩
  · rintro ⟨names, e, he, _⟩
    exact absurd he (hnone names e _)
  · exact absurd heq (by simp [boot, Hub.notices])

/-- What handlers have been told mirrors the tree, and so does what the next operation tells. -/
structure Mirrors (P : Platform) (h : Hub) : Prop where
  replayed : ∀ item, item ∈ replay h.notices ↔ h.Shows item
  removals : ∀ before path et after, h.notices = before ++ (path, et, .removed) :: after →
    (path, et) ∈ replay before

theorem tree_mirrored (hr : ReachableIf P (AnnouncesWell P) h) : Mirrors P h ∧
    ∀ fuel op h', AnnouncesWell P h op → step P fuel h op = .ok h' →
      ∃ told, h'.notices = h.notices ++ told ∧ ∀ n ∈ told, Reported P h h' n := by
  obtain ⟨ht, hsess, hm⟩ := reachableIf_induction mirrored_boot
    (fun b op h hb hsess hm hok hr => (reporting_run hb hsess hm hok hr).mirrored) hr
  refine ⟨⟨hm.replayed, hm.removals⟩, fun fuel op h' hok hs => ?_⟩
  obtain ⟨told, hn, htold, _⟩ :=
    (reporting_run ht hsess hm hok ((run_step fuel ht hsess op).result hs)).told
  exact ⟨told, hn, htold⟩

/-- An Input that comes and goes, and an Observation. -/
def announcedRun : List Op :=
  [.ioCreateInput 0 (ascii "x") .numeric [], .adminCreateObs (ascii "o"),
   .ioDeleteResource 0 (ascii "x")]

theorem tree_mirrored_announcedRun : ∃ h,
    ReachableIf smallPlatform (AnnouncesWell smallPlatform) h ∧
    replay h.notices = [(ascii "/obs/o", .observation)] ∧ Mirrors smallPlatform h ∧
    ∀ fuel op h', AnnouncesWell smallPlatform h op → step smallPlatform fuel h op = .ok h' →
      ∃ told, h'.notices = h.notices ++ told ∧ ∀ n ∈ told, Reported smallPlatform h h' n := by
  have hrun : smallRunEnds announcedRun (fun h =>
      decide (replay h.notices = [(ascii "/obs/o", .observation)])) = true := by
    decide +kernel
  unfold smallRunEnds at hrun
  split at hrun
  · next h hs =>
    have hr : ReachableIf smallPlatform (AnnouncesWell smallPlatform) h := by
      refine reachableIf_run (.boot _ _) (fun op hop h => ⟨?_, ?_⟩) hs
      · intro et names hcreates hg _
        fin_cases hop
        · cases hg with
          | client hop happ =>
            cases hop
            cases happ
            decide
          | resource hop => exact absurd hop List.not_mem_nil
          | observation hop => cases hop
        · cases hg with
          | client hop => cases hop
          | resource hop => exact absurd hop List.not_mem_nil
          | observation hop hrest =>
            cases hop
            cases hrest
            decide
        · cases hcreates
      · rintro path e entry rfl
        simp [announcedRun] at hop
    exact ⟨h, hr, of_decide_eq_true hrun, tree_mirrored hr⟩
  · cases hrun

/-- The only path that has been announced leads nowhere. -/
def announcesNowhere (h : Hub) : Bool :=
  match replay h.notices with
  | [(slash :: path, _)] =>
    passes (resTreeFindEntryAtAbsolutePath smallPlatform h (slash :: path)) (·.isNone)
  | _ => false

/-- The deletion of a Placeholder is announced, and a long path is cut off. -/
theorem tree_mirrored_fails :
    (∃ h, smallRun [.adminSetDefault (ascii "/obs/p") (.boolean true),
      .adminDeleteObs (ascii "p")] = .ok h ∧ ¬ Mirrors smallPlatform h) ∧
    ∃ h, smallRun [.ioCreateInput 0 (List.replicate 40 0x78 ++ ascii "/" ++ List.replicate 38 0x78)
      .numeric []] = .ok h ∧ ¬ Mirrors smallPlatform h := by
  constructor
  · have hrun : smallRunEnds [.adminSetDefault (ascii "/obs/p") (.boolean true),
        .adminDeleteObs (ascii "p")] (fun h =>
        decide (h.notices = [(ascii "/obs/p", .observation, .removed)])) = true := by
      decide +kernel
    unfold smallRunEnds at hrun
    split at hrun
    · next h hs =>
      refine ⟨h, hs, fun hm => ?_⟩
      exact absurd (hm.removals [] _ _ [] (of_decide_eq_true hrun)) List.not_mem_nil
    · cases hrun
  · have hrun : smallRunEnds [.ioCreateInput 0
        (List.replicate 40 0x78 ++ ascii "/" ++ List.replicate 38 0x78) .numeric []]
        announcesNowhere = true := by
      decide +kernel
    unfold smallRunEnds at hrun
    split at hrun
    · next h hs =>
      refine ⟨h, hs, fun hm => ?_⟩
      unfold announcesNowhere at hrun
      split at hrun
      · next slash path et hreplay =>
        obtain ⟨found, hfind, hnone⟩ := passes_iff.mp hrun
        obtain ⟨names, e, he, hpath⟩ :=
          (hm.replayed (slash :: path, et)).mp (hreplay ▸ List.mem_singleton.mpr rfl)
        dsimp only at hpath
        cases names with
        | nil => cases hpath
        | cons name names =>
          have hr := reachable_run _ (.boot _ _) hs
          rw [hpath, find_pathOf (reachable_searchable hr) he.leads] at hfind
          cases hfind
          cases hnone
      · cases hrun
    · cases hrun

end MangOH.DataHub
