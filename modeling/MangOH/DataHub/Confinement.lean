import MangOH.DataHub.Announcements
import MangOH.DataHub.Lifetimes

/-! The base entries of the tree, and the part of it that a client's calls are confined to. -/
namespace MangOH.DataHub

open Outcome

variable {P : Platform} {op : Op} {b h h' : Hub} {e x : EntryRef} {entry : Entry} {r : ResRef}
  {names names' : List CString} {et : EntryType} {act : Act} {told : List Notice}
  {ptr : Option ResRef} {appName : CString}

/-! ### What a release leaves alone -/

/-- The entry has one reference more than children. -/
def Entry.Owned (entry : Entry) : Prop := entry.refCount = entry.childList.length + 1

/-- An entry that has a reference of its own outlives its children. -/
theorem release_owned {fuel : Nat} (ht : TreeOk P h) (hrel : releaseEntry fuel h e = .ok h')
    (hx : h.entries x = some entry)
    (hkept : x ≠ e ∧ entry.Owned ∨ x = e ∧ entry.refCount = entry.childList.length + 2) :
    ∃ entry', h'.entries x = some entry' ∧ entry'.Owned := by
  induction fuel generalizing h e entry with
  | zero => cases hrel
  | succ fuel ih =>
    unfold releaseEntry at hrel
    obtain ⟨start, he, hrel⟩ := bind_eq_ok.mp hrel
    rw [getEntry_ok] at he
    split at hrel
    · cases hrel
      by_cases hxe : x = e
      · subst hxe
        cases he.symm.trans hx
        rcases hkept with ⟨hne, _⟩ | ⟨_, hcount⟩
        · exact absurd rfl hne
        · refine ⟨_, Function.update_self .., ?_⟩
          show entry.refCount - 1 = entry.childList.length + 1
          omega
      · rcases hkept with ⟨_, howned⟩ | ⟨heq, _⟩
        · exact ⟨entry, (Function.update_of_ne hxe ..).trans hx, howned⟩
        · exact absurd heq hxe
    · next hlast =>
      split at hrel
      · cases hrel
      · next parent hparent =>
        split at hrel
        · cases hrel
        · next hleaf =>
          rw [not_or, not_ne_iff] at hleaf
          have hxe : x ≠ e := by
            rintro rfl
            cases he.symm.trans hx
            rcases hkept with ⟨hne, _⟩ | ⟨_, hcount⟩
            · exact hne rfl
            · omega
          obtain ⟨h₁, hm, hrel⟩ := bind_eq_ok.mp hrel
          obtain ⟨p, hp, rfl⟩ := modifyEntry_ok.mp hm
          have ht₁ := destroyed_treeOk ht he hp hparent hleaf.1
          have hne : parent ≠ e := Nat.ne_of_lt (ht.parent_lt e start parent he hparent)
          have howned : entry.Owned := by
            rcases hkept with ⟨_, howned⟩ | ⟨heq, _⟩
            · exact howned
            · exact absurd heq hxe
          by_cases hxp : x = parent
          · subst hxp
            cases hp.symm.trans hx
            obtain ⟨m, hm, hmem⟩ :=
              ht.rooted.listed ht.directory ht.root (directory_of_entry he) hparent
            cases (directory_of_entry hx).symm.trans hm
            refine ih ht₁ hrel (destroyed_self hne) (.inr ⟨rfl, ?_⟩)
            have hlen := List.length_erase_of_mem (show e ∈ entry.childList from hmem)
            have hpos := List.length_pos_of_mem (show e ∈ entry.childList from hmem)
            have hcount : entry.refCount = entry.childList.length + 1 := howned
            show entry.refCount = (entry.childList.erase e).length + 2
            omega
          · have hx₁ : (h.destroyed parent e p).entries x = some entry := by
              simp [Hub.destroyed, Hub.freeEntry, Hub.setEntry, hxe, hxp, hx]
            exact ih ht₁ hrel hx₁ (.inl ⟨hxp, howned⟩)

/-- Only entries on the way to the one that is released go with it. -/
theorem release_way {fuel : Nat} (ht : TreeOk P h) (hrel : releaseEntry fuel h e = .ok h')
    (hx : h.directory x ≠ none) (hgone : h'.directory x = none) :
    ∃ rest, h.directory.Leads x rest e := by
  induction fuel generalizing h e with
  | zero => cases hrel
  | succ fuel ih =>
    unfold releaseEntry at hrel
    obtain ⟨entry, he, hrel⟩ := bind_eq_ok.mp hrel
    rw [getEntry_ok] at he
    split at hrel
    · cases hrel
      have hd : (h.setEntry e { entry with refCount := entry.refCount - 1 }).directory =
        h.directory := directory_update he rfl rfl
      exact absurd (hd ▸ hgone) hx
    · split at hrel
      · cases hrel
      · next parent hparent =>
        split at hrel
        · cases hrel
        · next hleaf =>
          rw [not_or, not_ne_iff] at hleaf
          obtain ⟨h₁, hm, hrel⟩ := bind_eq_ok.mp hrel
          obtain ⟨p, hp, rfl⟩ := modifyEntry_ok.mp hm
          by_cases hxe : x = e
          · subst hxe
            exact ⟨[], .here _⟩
          · have hd := directory_destroyed h parent e p
            have hx₁ : (h.destroyed parent e p).directory x ≠ none := by
              obtain ⟨entry', hx⟩ := entry_of_node hx
              by_cases hxp : x = parent
              · subst hxp
                simp [directory_of_entry (destroyed_self (h := h) (p := p) hxe)]
              · have hx' : (h.destroyed parent e p).entries x = some entry' := by
                  simp [Hub.destroyed, Hub.freeEntry, Hub.setEntry, hxe, hxp, hx]
                simp [directory_of_entry hx']
            obtain ⟨rest, hl⟩ := ih (destroyed_treeOk ht he hp hparent hleaf.1) hrel hx₁
            rw [hd] at hl
            obtain ⟨m, hm, hmem⟩ :=
              ht.rooted.listed ht.directory ht.root (directory_of_entry he) hparent
            exact ⟨rest ++ [entry.name], Directory.leads_append.mpr
              ⟨parent, hl.of_remove (directory_of_entry hp),
                .child hm hmem (directory_of_entry he) rfl (.here e)⟩⟩

/-! ### Base entries -/

/-- The names that lead to the root, to `/app`, to `/obs` and to the namespaces of the apps. -/
inductive Base (P : Platform) : List CString → Prop
  | root : Base P []
  | app : Base P [ascii "app"]
  | obs : Base P [ascii "obs"]
  | client {session : Nat} {appName : CString} (happ : P.appName session = some appName) :
      Base P (clientNames appName)

/-- The operation creates no resource at a base entry itself. -/
def SparesBases (P : Platform) (op : Op) : Prop :=
  op.attaches = true → ∀ names, Goal P op names → ¬ Base P names

/-- Base entries are Namespaces with a reference of their own, those that are saved for a session
are there, and Observations are below `/obs`. -/
structure Based (P : Platform) (h : Hub) : Prop where
  bases : ∀ names e entry, Base P names → h.directory.Leads rootPtr names e →
    h.entries e = some entry → entry.type = .nameSpace ∧ entry.Owned
  cached : ∀ session ns, h.sessions session = some ns → h.directory ns ≠ none
  observations : ∀ names e, Shown h names e .observation → names.head? = some (ascii "obs")

/-- The entry whose type an act changes. -/
def Act.touches : Act → Option EntryRef
  | .settle e | .add e _ | .unplug e | .free e _ => some e
  | .create _ _ | .cache _ _ => none

theorem nameSpace_of_base (hb : Based P h) (hbase : Base P names)
    (hl : h.directory.Leads rootPtr names e) (he : h.entries e = some entry) :
    entry.type = .nameSpace := (hb.bases names e entry hbase hl he).1

/-- An act does not change the type of a base entry. -/
theorem untouched (ht : TreeOk P h) (hb : Based P h) (hok : SparesBases P op)
    (hs : TreeStep P h act h') (hl : Allowed P op b h act) (hact : act.touches = some e)
    (hbase : Base P names) : ¬ h.directory.Leads rootPtr names e := by
  intro hleads
  cases hs with
  | settle =>
    cases hact
    cases hl with
    | settle hop hl =>
      cases ht.directory.leads_names ht.root hleads hl
      exact hok (attaches_of_resource hop) _ (.resource hop) hbase
  | add =>
    cases hact
    cases hl with
    | add hop hg hl =>
      cases ht.directory.leads_names ht.root hleads hl
      exact hok (attaches_of_creates hop) _ hg hbase
  | unplug hio _ hr =>
    cases hact
    rw [nameSpace_of_base hb hbase hleads hr.was] at hio
    cases hio
  | free hptr _ hr =>
    cases hact
    have hns := (ht.nameSpace _ _ hr.was).mp (nameSpace_of_base hb hbase hleads hr.was)
    rw [hns] at hptr
    cases hptr
  | create => cases hact
  | cache => cases hact

/-- An entry that an act does not change is still there if it has a reference of its own, or is not
on the way to one that is released. -/
theorem kept_act (ht : TreeOk P h) (hs : TreeStep P h act h') (hx : h.entries x = some entry)
    (hne : act.touches ≠ some x)
    (hsafe : entry.Owned ∨ ∀ e et rest, act = .free e et → ¬ h.directory.Leads x rest e) :
    ∃ entry', h'.entries x = some entry' ∧ entry'.type = entry.type ∧
      (entry.Owned → entry'.Owned) := by
  have hother : ∀ {e ptr et told} {was : Entry} {h₁ : Hub}, Retyped h h₁ e was et ptr told →
      some e ≠ some x → h₁.entries x = some entry := by
    intro e ptr et told was h₁ hr hne
    rw [hr.other fun heq => hne (heq ▸ rfl), hx]
  cases hs with
  | @create parent _ _ _ ha hname =>
    obtain ⟨p, hp, rfl, _, _, _, hent⟩ := addChild_entries ha hname
    rw [hent, Function.update_of_ne (Nat.ne_of_lt (ht.entry_lt _ _ hx))]
    by_cases hxp : x = parent
    · subst hxp
      cases hp.symm.trans hx
      refine ⟨_, Function.update_self .., rfl, fun howned => ?_⟩
      have hcount : entry.refCount = entry.childList.length + 1 := howned
      show entry.refCount + 1 = (entry.childList ++ [h.nextEntry]).length + 1
      rw [List.length_append, hcount]
      rfl
    · exact ⟨entry, (Function.update_of_ne hxp ..).trans hx, rfl, id⟩
  | settle _ hr => exact ⟨entry, hother hr hne, rfl, id⟩
  | add _ _ _ hr => exact ⟨entry, hother hr hne, rfl, id⟩
  | unplug _ _ hr => exact ⟨entry, hother hr hne, rfl, id⟩
  | @free e et _ _ _ _ _ _ _ hr hrel =>
    have hx₁ := hother hr hne
    have ht₁ := hr.treeOk ht (by simp)
    have hxe : x ≠ e := fun heq => hne (heq ▸ rfl)
    have howned : entry.Owned → ∃ entry', h'.entries x = some entry' ∧ entry'.Owned :=
      fun howned => release_owned ht₁ hrel hx₁ (.inl ⟨hxe, howned⟩)
    obtain ⟨entry', hx'⟩ : ∃ entry', h'.entries x = some entry' := by
      rcases hsafe with ho | hway
      · obtain ⟨entry', hx', _⟩ := howned ho
        exact ⟨entry', hx'⟩
      · refine entry_of_node fun hgone => ?_
        obtain ⟨rest, hl⟩ := release_way ht₁ hrel (by simp [directory_of_entry hx₁]) hgone
        exact hway e et rest rfl (hr.directory ▸ hl)
    obtain ⟨was, hwas, htype, _⟩ := ((releaseEntry_frame _ _ _).result hrel).kept x entry' hx'
    cases hx₁.symm.trans hwas
    refine ⟨entry', hx', htype, fun ho => ?_⟩
    obtain ⟨entry'', hx'', ho'⟩ := howned ho
    cases hx'.symm.trans hx''
    exact ho'
  | cache => exact ⟨entry, hx, rfl, id⟩

/-- Base entries are still there after an act. -/
theorem base_act (ht : TreeOk P h) (hb : Based P h) (hok : SparesBases P op)
    (hs : TreeStep P h act h') (hl : Allowed P op b h act) (hbase : Base P names)
    (hleads : h.directory.Leads rootPtr names x) : h'.directory.Leads rootPtr names x := by
  obtain ⟨entry, hx⟩ := entry_of_node (hleads.exists_node ht.exists_root)
  obtain ⟨entry', hx', _⟩ := kept_act ht hs hx
    (fun hact => untouched ht hb hok hs hl hact hbase hleads)
    (.inl (hb.bases names x entry hbase hleads hx).2)
  exact hs.leads ht (by simp [directory_of_entry hx']) hleads

theorem based_act (ht : TreeOk P h) (hsess : SessionsOk P h) (hb : Based P h)
    (hok : SparesBases P op) (hs : TreeStep P h act h') (hl : Allowed P op b h act) :
    Based P h' := by
  have ht' := hs.treeOk ht
  refine ⟨fun names x entry' hbase hleads hx => ?_, fun session ns hns => ?_,
    fun names x hx => ?_⟩
  · cases hold : h.entries x with
    | some entry =>
      have hleads := hs.leads_back ht hleads (by simp [directory_of_entry hold])
      obtain ⟨htype, howned⟩ := hb.bases names x entry hbase hleads hold
      obtain ⟨entry'', hx', htype', howned'⟩ := kept_act ht hs hold
        (fun hact => untouched ht hb hok hs hl hact hbase hleads) (.inl howned)
      cases hx.symm.trans hx'
      exact ⟨htype'.trans htype, howned' howned⟩
    | none =>
      obtain ⟨parent, name, _, rfl⟩ := hs.fresh hx hold
      exact ⟨rfl, rfl⟩
  · have hkept : h.sessions session = some ns → h'.directory ns ≠ none := by
      intro hns
      obtain ⟨_, appName, happ, hat⟩ := hsess session ns hns
      have hleads := base_act ht hb hok hs hl (.client happ) (hat (hb.cached session ns hns))
      exact hleads.exists_node ht'.exists_root
    cases hs with
    | create ha hname =>
      obtain ⟨_, _, _, _, hsess', _⟩ := addChild_entries ha hname
      exact hkept (hsess' ▸ hns)
    | settle _ hr => exact hkept (hr.sessions ▸ hns)
    | add _ _ _ hr => exact hkept (hr.sessions ▸ hns)
    | unplug _ _ hr => exact hkept (hr.sessions ▸ hns)
    | free _ _ hr hrel =>
      refine hkept ?_
      rw [← hr.sessions, ← ((releaseEntry_frame _ _ _).result hrel).sessions]
      exact hns
    | cache session' ns' =>
      by_cases heq : session = session'
      · subst heq
        dsimp only at hns
        rw [Function.update_self] at hns
        cases hl with
        | cache _ _ hl => exact (hl ns hns).exists_node ht.exists_root
      · dsimp only at hns
        rw [Function.update_of_ne heq] at hns
        exact hkept hns
  · rcases shown_act ht hs hx with hx | ⟨rfl, hleads⟩
    · exact hb.observations names x hx
    · cases hl with
      | add hop hg hl =>
        cases ht.directory.leads_names ht.root hleads hl
        exact goal_place hop hg

/-! ### What a client's calls leave alone -/

/-- The names lead from the root to below the namespace of the app. -/
def Below (appName : CString) (names : List CString) : Prop :=
  ∃ name rest, names = clientNames appName ++ name :: rest

/-- Nothing has changed outside the namespace of the app, but that it may have been created. -/
structure Confined (appName : CString) (h h' : Hub) : Prop where
  kept : ∀ names e entry, ¬ Below appName names → h.directory.Leads rootPtr names e →
    h.entries e = some entry →
      h'.directory.Leads rootPtr names e ∧
        ∃ entry', h'.entries e = some entry' ∧ entry'.type = entry.type
  created : ∀ names e, ¬ Below appName names → h'.directory.Leads rootPtr names e →
    h.directory.Leads rootPtr names e ∨ names = [ascii "app"] ∨ names = clientNames appName

theorem Confined.trans (hc : Confined appName b h) (hc' : Confined appName h h') :
    Confined appName b h' := by
  refine ⟨fun names e entry hout hl he => ?_, fun names e hout hl => ?_⟩
  · obtain ⟨hl, entry', he, htype⟩ := hc.kept names e entry hout hl he
    obtain ⟨hl, entry'', he, htype'⟩ := hc'.kept names e entry' hout hl he
    exact ⟨hl, entry'', he, htype'.trans htype⟩
  · rcases hc'.created names e hout hl with hl | hnew
    · exact hc.created names e hout hl
    · exact .inr hnew

theorem Calm.confined (hc : Calm h h') : Confined appName h h' :=
  ⟨fun _ _ entry _ hl he => ⟨directory_congr hc.entries ▸ hl, entry, hc.entries ▸ he, rfl⟩,
    fun _ _ _ hl => .inl (directory_congr hc.entries ▸ hl)⟩

/-- The apps have names that are not paths. -/
def AppNames (P : Platform) : Prop :=
  ∀ session appName, P.appName session = some appName → appName ≠ [] ∧ 0x2f ∉ appName

theorem clientNames_eq (hn : appName ≠ [] ∧ 0x2f ∉ appName) :
    clientNames appName = [ascii "app", appName] := by
  have hsplit := splitPath_pathOf hn.2 (List.forall_mem_nil _)
  rw [pathOf_nil, List.append_nil] at hsplit
  unfold clientNames
  cases appName with
  | nil => exact absurd rfl hn.1
  | cons c appName =>
    have hc : c ≠ 0x2f := fun hc => hn.2 (hc ▸ List.mem_cons_self)
    rw [pathElements, if_neg hc, hsplit]

/-- The names on the way to below the namespace of an app. -/
theorem prefix_cases {rest elements : List CString} (hn : appName ≠ [] ∧ 0x2f ∉ appName)
    (heq : names ++ rest = clientNames appName ++ elements) :
    names = [] ∨ names = [ascii "app"] ∨ names = clientNames appName ∨ Below appName names := by
  rcases List.append_eq_append_iff.mp heq with ⟨more, hmore, _⟩ | ⟨more, rfl, _⟩
  · rw [clientNames_eq hn] at hmore ⊢
    cases names with
    | nil => exact .inl rfl
    | cons first names =>
      rw [List.cons_append, List.cons_eq_cons] at hmore
      obtain ⟨rfl, hmore⟩ := hmore
      cases names with
      | nil => exact .inr (.inl rfl)
      | cons second names =>
        rw [List.cons_append, List.cons_eq_cons] at hmore
        obtain ⟨rfl, hmore⟩ := hmore
        cases names with
        | nil => exact .inr (.inr (.inl rfl))
        | cons => cases hmore
  · cases more with
    | nil => exact .inr (.inr (.inl (List.append_nil _)))
    | cons name more => exact .inr (.inr (.inr ⟨name, more, rfl⟩))

theorem goal_client {session : Nat} {path : CString} (hop : op.client = some (session, path))
    (happ : P.appName session = some appName) (hg : Goal P op names) :
    names = clientNames appName ++ pathElements path := by
  cases hg with
  | client hop' happ' =>
    cases hop.symm.trans hop'
    cases happ.symm.trans happ'
    rfl
  | resource hmem => cases op <;> first | exact absurd hmem List.not_mem_nil | cases hop
  | observation hobs => cases op <;> cases hobs <;> cases hop

/-- A client's call changes types below its namespace only. -/
theorem touches_below {session : Nat} {path : CString} (ht : TreeOk P h) (hb : Based P h)
    (hok : SparesBases P op) (hop : op.client = some (session, path))
    (happ : P.appName session = some appName) (hs : TreeStep P h act h')
    (hl : Allowed P op b h act) (hact : act.touches = some e) :
    ∃ names, Below appName names ∧ h.directory.Leads rootPtr names e := by
  obtain ⟨names, hg, hleads⟩ : ∃ names, Goal P op names ∧ h.directory.Leads rootPtr names e := by
    cases hl with
    | create => cases hact
    | settle hmem =>
      exact absurd hmem (by cases op <;> first | exact List.not_mem_nil | cases hop)
    | add _ hg hl => cases hact; exact ⟨_, hg, hl⟩
    | unplug _ hg hl => cases hact; exact ⟨_, hg, hl⟩
    | freeIo _ hg hl => cases hact; exact ⟨_, hg, hl⟩
    | freeObs hop' =>
      rw [hop'] at hop
      cases hop
    | cache => cases hact
  refine ⟨names, ?_, hleads⟩
  have heq := goal_client hop happ hg
  cases hpath : pathElements path with
  | nil =>
    rw [hpath, List.append_nil] at heq
    exact absurd hleads (untouched ht hb hok hs hl hact (heq ▸ .client happ))
  | cons name rest => exact ⟨name, rest, heq.trans (by rw [hpath])⟩

theorem confined_act {session : Nat} {path : CString} (hP : AppNames P) (ht : TreeOk P h)
    (hb : Based P h) (hok : SparesBases P op) (hop : op.client = some (session, path))
    (happ : P.appName session = some appName) (hs : TreeStep P h act h')
    (hl : Allowed P op b h act) : Confined appName h h' := by
  have hn := hP session appName happ
  have ht' := hs.treeOk ht
  have hbelow := fun e => touches_below (e := e) ht hb hok hop happ hs hl
  refine ⟨fun names x entry hout hleads hx => ?_, fun names x hout hleads => ?_⟩
  · have hne : act.touches ≠ some x := fun hact => by
      obtain ⟨names', hin, hleads'⟩ := hbelow x hact
      cases ht.directory.leads_names ht.root hleads hleads'
      exact hout hin
    obtain ⟨entry', hx', htype, _⟩ := kept_act ht hs hx hne (by
      by_cases howned : entry.Owned
      · exact .inl howned
      · refine .inr fun e et rest hfree hway => ?_
        obtain ⟨names', ⟨name, rest', rfl⟩, hleads'⟩ := hbelow e (by rw [hfree]; rfl)
        have heq := ht.directory.leads_names ht.root
          (Directory.leads_append.mpr ⟨x, hleads, hway⟩) hleads'
        have hbase : ¬ Base P names :=
          fun hbase => howned (hb.bases names x entry hbase hleads hx).2
        rcases prefix_cases hn heq with rfl | rfl | rfl | hin
        · exact hbase .root
        · exact hbase .app
        · exact hbase (.client happ)
        · exact hout hin)
    exact ⟨hs.leads ht (by simp [directory_of_entry hx']) hleads, entry', hx', htype⟩
  · cases hold : h.entries x with
    | some entry => exact .inl (hs.leads_back ht hleads (by simp [directory_of_entry hold]))
    | none =>
      obtain ⟨entry', hx'⟩ := entry_of_node (hleads.exists_node ht'.exists_root)
      obtain ⟨parent, name, rfl, rfl⟩ := hs.fresh hx' hold
      cases hl with
      | @create _ _ names₀ rest hg hl =>
        have heq : names = names₀ ++ [name] := by
          cases hs with
          | create ha hname =>
            obtain ⟨p, hp, rfl, hdir⟩ := directory_addChild ha hname
            rcases addChild_cases ha hname hx' with ⟨rfl, _⟩ | ⟨_, rfl, _, hx, _⟩ | ⟨_, _, hx⟩
            · refine ht'.directory.leads_names ht'.root hleads ?_
              rw [hdir]
              exact Directory.leads_append.mpr ⟨parent, hl.add (directory_of_entry hp) ht.next_none,
                Directory.leads_added (directory_of_entry hp) ht.next_none⟩
            · cases hold.symm.trans hx
            · cases hold.symm.trans hx
        have hgoal : names ++ rest = clientNames appName ++ pathElements path := by
          rw [← goal_client hop happ hg, heq, List.append_assoc]
          rfl
        rcases prefix_cases hn hgoal with hnil | happ | hclient | hin
        · rw [heq] at hnil
          exact absurd hnil (by simp)
        · exact .inr (.inl happ)
        · exact .inr (.inr hclient)
        · exact absurd hin hout

/-! ### Operations and runs -/

/-- Base entries are Namespaces, those that are saved for a session are there, and Observations are
below `/obs` only. -/
structure Namespaces (P : Platform) (h : Hub) : Prop where
  bases : ∀ names e entry, Base P names → h.directory.Leads rootPtr names e →
    h.entries e = some entry → entry.type = .nameSpace
  cached : ∀ session ns, h.sessions session = some ns → ∃ appName,
    P.appName session = some appName ∧ h.directory.Leads rootPtr (clientNames appName) ns
  observations : ∀ e entry, h.entries e = some entry → entry.type = .observation →
    ∃ name names, h.directory.Leads rootPtr (ascii "obs" :: name :: names) e

theorem Based.namespaces (hb : Based P h) (ht : TreeOk P h) (hsess : SessionsOk P h) :
    Namespaces P h := by
  refine ⟨fun names e entry hbase hl he => (hb.bases names e entry hbase hl he).1,
    fun session ns hns => ?_, fun e entry he htype => ?_⟩
  · obtain ⟨_, appName, happ, hat⟩ := hsess session ns hns
    exact ⟨appName, happ, hat (hb.cached session ns hns)⟩
  · obtain ⟨names, hl⟩ := ht.rooted e (by simp [directory_of_entry he])
    have hplace := hb.observations names e ⟨hl, ⟨entry, he, htype⟩, rfl⟩
    have hbase : ¬ Base P names := fun hbase => by
      rw [(hb.bases names e entry hbase hl he).1] at htype
      cases htype
    cases names with
    | nil => cases hplace
    | cons first names =>
      cases hplace
      cases names with
      | nil => exact absurd .obs hbase
      | cons name names => exact ⟨name, names, hl⟩

/-- What an operation leaves as it was. -/
structure KeepsNamespaces (P : Platform) (op : Op) (h h' : Hub) : Prop where
  bases : ∀ names e, Base P names → h.directory.Leads rootPtr names e →
    h'.directory.Leads rootPtr names e
  client : ∀ session path appName, op.client = some (session, path) →
    P.appName session = some appName → Confined appName h h'

theorem keeps_run (hP : AppNames P) (ht : TreeOk P b) (hsess : SessionsOk P b) (hb : Based P b)
    (hok : SparesBases P op) (hr : TreeRun P (Allowed P op b) b h) :
    Based P h ∧ KeepsNamespaces P op b h := by
  refine (treeRun_induction (Q := fun h => Based P h ∧ KeepsNamespaces P op b h) caches_allowed ht
    hsess ⟨hb, fun _ _ _ hl => hl, fun _ _ _ _ _ => (Calm.refl b).confined⟩ ?_ ?_ hr).2.2
  · rintro h h' _ ⟨hb, hk⟩ hc
    have hd := directory_congr hc.entries
    refine ⟨⟨?_, ?_, fun names e he => hb.observations names e ((shown_calm hc).mp he)⟩,
      fun names e hbase hl => hd ▸ hk.bases names e hbase hl,
      fun session path appName hop happ => (hk.client session path appName hop happ).trans
        hc.confined⟩
    · rw [hd, hc.entries]
      exact hb.bases
    · rw [hd, hc.sessions]
      exact hb.cached
  · rintro h act h' ht hsess ⟨hb, hk⟩ hs hl
    exact ⟨based_act ht hsess hb hok hs hl,
      fun names e hbase hleads => base_act ht hb hok hs hl hbase (hk.bases names e hbase hleads),
      fun session path appName hop happ => (hk.client session path appName hop happ).trans
        (confined_act hP ht hb hok hop happ hs hl)⟩

theorem based_boot (env : Environment) (files : List (CString × Bytes)) :
    Based P (boot env files) := by
  have hroot : ∀ e entry, (boot env files).entries e = some entry →
      entry.type = .nameSpace ∧ entry.Owned := by
    intro e entry he
    simp only [boot] at he
    split at he
    · cases he
      exact ⟨rfl, rfl⟩
    · cases he
  refine ⟨fun names e entry _ _ he => hroot e entry he, ?_, fun names e hx => ?_⟩
  · intro session ns hns
    cases hns
  · obtain ⟨entry, he, htype⟩ := hx.entry
    rw [(hroot e entry he).1] at htype
    cases htype

theorem namespaces_kept (hP : AppNames P) (hr : ReachableIf P (fun _ => SparesBases P) h) :
    Namespaces P h ∧ ∀ fuel op h', SparesBases P op → step P fuel h op = .ok h' →
      KeepsNamespaces P op h h' := by
  obtain ⟨ht, hsess, hb⟩ := reachableIf_induction based_boot
    (fun b op h ht hsess hb hok hr => (keeps_run hP ht hsess hb hok hr).1) hr
  exact ⟨hb.namespaces ht hsess, fun fuel op h' hok hs =>
    (keeps_run hP ht hsess hb hok ((run_step fuel ht hsess op).result hs)).2⟩

/-- An Input with a default from outside, and an Observation. -/
def confinedRun : List Op :=
  [.ioCreateInput 0 (ascii "x") .numeric [], .adminSetDefault (ascii "/app/a/y") (.boolean true),
   .adminCreateObs (ascii "o")]

theorem appNames_smallPlatform : AppNames smallPlatform := by
  rintro session appName happ
  cases happ
  decide

theorem base_smallPlatform (hbase : Base smallPlatform names) :
    names ∈ [[], [ascii "app"], [ascii "obs"], [ascii "app", ascii "a"]] := by
  cases hbase with
  | client happ =>
    cases happ
    decide
  | _ => decide

theorem namespaces_kept_confinedRun : ∃ h, smallRun confinedRun = .ok h ∧
    (h.sessions 0).isSome = true ∧ Namespaces smallPlatform h ∧
    ∀ fuel op h', SparesBases smallPlatform op → step smallPlatform fuel h op = .ok h' →
      KeepsNamespaces smallPlatform op h h' := by
  have hrun : smallRunEnds confinedRun (fun h => (h.sessions 0).isSome) = true := by
    decide +kernel
  unfold smallRunEnds at hrun
  split at hrun
  · next h hs =>
    have hr : ReachableIf smallPlatform (fun _ => SparesBases smallPlatform) h := by
      refine reachableIf_run (.boot _ _) (fun op hop h => ?_) hs
      intro _ names hg hbase
      have hmem := base_smallPlatform hbase
      revert hmem
      fin_cases hop
      · cases hg with
        | client hop happ =>
          cases hop
          cases happ
          decide
        | resource hop => exact absurd hop List.not_mem_nil
        | observation hop => cases hop
      · cases hg with
        | client hop => cases hop
        | resource hop =>
          cases List.mem_singleton.mp hop
          decide
        | observation hop => cases hop
      · cases hg with
        | client hop => cases hop
        | resource hop => exact absurd hop List.not_mem_nil
        | observation hop hrest =>
          cases hop
          cases hrest
          decide
    exact ⟨h, hs, hrun, namespaces_kept appNames_smallPlatform hr⟩
  · cases hrun

/-- Where an absolute path leads, from the root. -/
theorem leads_of_find {names : List CString} {rest : CString} (hr : Reachable smallPlatform h)
    (hp : pathElements rest = names)
    (hf : (match resTreeFindEntryAtAbsolutePath smallPlatform h (0x2f :: rest) with
      | .ok found => found == some e
      | .error _ => false) = true) : h.directory.Leads rootPtr names e := by
  have hd := reachable_searchable hr
  obtain ⟨found, hfound, hl⟩ := findEntry_spec hd.directory hd.exists_root rest
  have habs : resTreeFindEntryAtAbsolutePath smallPlatform h (0x2f :: rest) = .ok found := hfound
  rw [habs] at hf
  exact hp ▸ (hl e).mp (eq_of_beq hf)

/-- A client's first call creates `/app`, which is not below the namespace of the client, and a call
with an empty path makes an Input of that namespace. -/
theorem namespaces_kept_fails :
    (∃ h e, smallRun [.ioCreateInput 0 (ascii "x") .numeric []] = .ok h ∧
      h.directory.Leads rootPtr [ascii "app"] e ∧
      ¬ (boot smallEnvironment []).directory.Leads rootPtr [ascii "app"] e ∧
      ¬ Below (ascii "a") [ascii "app"]) ∧
    ∃ h, smallRun [.ioCreateInput 0 [] .numeric []] = .ok h ∧ ¬ Namespaces smallPlatform h := by
  refine ⟨?_, ?_⟩
  · have hrun : smallRunEnds [.ioCreateInput 0 (ascii "x") .numeric []] (fun h =>
        match resTreeFindEntryAtAbsolutePath smallPlatform h (ascii "/app") with
        | .ok found => found == some 1
        | .error _ => false) = true := by
      decide +kernel
    unfold smallRunEnds at hrun
    split at hrun
    · next h hs =>
      refine ⟨h, 1, hs, leads_of_find (reachable_run _ (.boot _ _) hs) (by decide) hrun,
        fun hl => ?_, ?_⟩
      · have hroot := reachable_searchable (P := smallPlatform) (.boot smallEnvironment [])
        exact hl.exists_node hroot.exists_root rfl
      · rintro ⟨name, rest, heq⟩
        have hlen := congrArg List.length heq
        rw [show clientNames (ascii "a") = [ascii "app", ascii "a"] by decide] at hlen
        simp at hlen
    · cases hrun
  · have hrun : smallRunEnds [.ioCreateInput 0 [] .numeric []] (fun h =>
        (match resTreeFindEntryAtAbsolutePath smallPlatform h (ascii "/app/a") with
          | .ok found => found == some 2
          | .error _ => false) &&
        (h.entries 2).any fun entry => entry.type == .input) = true := by
      decide +kernel
    unfold smallRunEnds at hrun
    split at hrun
    · next h hs =>
      obtain ⟨hfind, hany⟩ := (Bool.and_eq_true _ _).mp hrun
      obtain ⟨entry, he, htype⟩ := (Option.any_eq_true _ _).mp hany
      refine ⟨h, hs, fun hn => ?_⟩
      have hl : h.directory.Leads rootPtr [ascii "app", ascii "a"] 2 :=
        leads_of_find (reachable_run _ (.boot _ _) hs) (by decide) hfind
      have happ : smallPlatform.appName 0 = some (ascii "a") := rfl
      have hbase : Base smallPlatform (clientNames (ascii "a")) := .client happ
      rw [show clientNames (ascii "a") = [ascii "app", ascii "a"] by decide] at hbase
      rw [hn.bases _ _ entry hbase hl he] at htype
      cases htype
    · cases hrun

end MangOH.DataHub
