import MangOH.DataHub.ObservationLookups
import MangOH.DataHub.TreeActs

/-! The acts of which the operations of the services are made. -/
namespace MangOH.DataHub

open Outcome Relation

variable {P : Platform} {op : Op} {b h h' : Hub} {e base ns : EntryRef} {r : ResRef}
  {path : CString} {pre names rest : List CString} {et : EntryType}

/-! ### Where the operations may act -/

/-- The session whose namespace an operation looks up, and the path from there. -/
def Op.client : Op → Option (Nat × CString)
  | .ioCreateInput session path _ _ | .ioCreateOutput session path _ _
  | .ioDeleteResource session path | .ioPush session path _ _ | .ioSetJsonExample session path _
  | .ioAddPushHandler session path _ | .ioMarkOptional session path
  | .ioSetDefault session path _ => some (session, path)
  | _ => none

/-- The path of the Observation that an operation creates if there is none. -/
def Op.observation : Op → Option CString
  | .adminCreateObs path | .adminSetMinPeriod path _ | .adminSetHighLimit path _
  | .adminSetLowLimit path _ | .adminSetChangeBy path _ | .adminSetTransform path _
  | .adminSetBufferMaxCount path _ | .adminSetBufferBackupPeriod path _
  | .adminSetJsonExtraction path _ => some path
  | _ => none

/-- The paths at which an operation creates Placeholders if there are no resources. -/
def Op.resources : Op → List CString
  | .adminAddPushHandler path _ | .adminSetDefault path _ | .adminSetOverride path _ => [path]
  | .adminSetSource destPath srcPath => [destPath, srcPath]
  | _ => []

/-- The type of the Inputs, Outputs or Observations that an operation creates. -/
def Op.creates : Op → Option EntryType
  | .ioCreateInput .. => some .input
  | .ioCreateOutput .. => some .output
  | op => op.observation.map fun _ => .observation

/-- Names that lead from the root to where an operation creates entries. -/
inductive Goal (P : Platform) (op : Op) : List CString → Prop
  | client {session : Nat} {path appName : CString} (hop : op.client = some (session, path))
      (happ : P.appName session = some appName) :
      Goal P op (clientNames appName ++ pathElements path)
  | resource {path : CString} (hop : path ∈ op.resources) : Goal P op (pathElements path)
  | observation {path rest : CString} (hop : op.observation = some path)
      (hrest : obsRelative path = some rest) : Goal P op (ascii "obs" :: pathElements rest)

/-- The acts of an operation that starts in the first of two states. -/
inductive Allowed (P : Platform) (op : Op) (b h : Hub) : Act → Prop
  | create {parent : EntryRef} {name : CString} {names rest : List CString}
      (hg : Goal P op (names ++ name :: rest)) (hl : h.directory.Leads rootPtr names parent) :
      Allowed P op b h (.create parent name)
  | settle {e : EntryRef} {path : CString} (hop : path ∈ op.resources)
      (hl : h.directory.Leads rootPtr (pathElements path) e) : Allowed P op b h (.settle e)
  | add {e : EntryRef} {et : EntryType} {names : List CString} (hop : op.creates = some et)
      (hg : Goal P op names) (hl : h.directory.Leads rootPtr names e) : Allowed P op b h (.add e et)
  | unplug {e : EntryRef} {session : Nat} {path : CString} {names : List CString}
      (hop : op = .ioDeleteResource session path) (hg : Goal P op names)
      (hl : h.directory.Leads rootPtr names e) : Allowed P op b h (.unplug e)
  | freeIo {e : EntryRef} {entry : Entry} {session : Nat} {path : CString} {names : List CString}
      (hop : op = .ioDeleteResource session path) (hg : Goal P op names)
      (hl : h.directory.Leads rootPtr names e) (he : h.entries e = some entry)
      (hio : entry.type.isIo = true) : Allowed P op b h (.free e entry.type)
  | freeObs {e : EntryRef} {path : CString} (hop : op = .adminDeleteObs path)
      (hbegin : h = b) (hf : FoundUnderObs h path e) : Allowed P op b h (.free e .observation)
  | cache {session : Nat} {path appName : CString} {ns : Option EntryRef}
      (hop : op.client = some (session, path)) (happ : P.appName session = some appName)
      (hl : ∀ e, ns = some e → h.directory.Leads rootPtr (clientNames appName) e) :
      Allowed P op b h (.cache session ns)

theorem caches_allowed : Caches P (Allowed P op b) := by
  intro h session ns hl
  cases hl with
  | cache hop happ hl => exact ⟨_, happ, hl ns rfl⟩

/-- Only entries below the root are released. -/
theorem Allowed.below (ha : Allowed P op b h (.free e et)) :
    ∃ name names, h.directory.Leads rootPtr (name :: names) e := by
  cases ha with
  | freeIo hop hg hl =>
    subst hop
    cases hg with
    | client => exact ⟨_, _, hl⟩
    | resource hop => cases hop
    | observation hop => cases hop
  | freeObs _ _ hf =>
    obtain ⟨ns, hns, hl⟩ := hf
    exact ⟨_, _, Directory.leads_append.mpr ⟨ns, hns, hl⟩⟩

/-! ### Going to an entry -/

theorem at_root (h : Hub) : At h [] rootPtr := fun _ => .here _

theorem findChild_exists {name : CString} {found : Option EntryRef}
    (hf : resTreeFindChild h e name = .ok found) : h.directory e ≠ none := by
  obtain ⟨entry, he, _⟩ := bind_eq_ok.mp hf
  simp [directory_of_entry (getEntry_ok.mp he)]

theorem run_walk (hb : TreeOk P b) (hg : Goal P op (pre ++ names ++ rest))
    (hnames : ∀ name ∈ names, 0x2f ∉ name ∧ ∀ c ∈ name, isIllegal c = false)
    (hr : TreeRun P (Allowed P op b) b h) (hat : At h pre e) :
    Returns (walk P true names h e) fun p => TreeRun P (Allowed P op b) b p.1 ∧
      ∀ x, p.2 = some x → At p.1 (pre ++ names) x ∧
        (h.directory e ≠ none → p.1.directory x ≠ none) := by
  induction names generalizing h e pre with
  | nil =>
    refine ⟨hr, ?_⟩
    rintro _ ⟨⟩
    rw [List.append_nil]
    exact ⟨hat, id⟩
  | cons name names ih =>
    unfold walk
    split
    · exact ⟨hr, by simp⟩
    · next hlen =>
      refine Returns.of_ok fun p hw => ?_
      obtain ⟨found, hfind, hw⟩ := bind_eq_ok.mp hw
      have hthere := findChild_exists hfind
      have hl := hat hthere
      have ht := hr.treeOk hb
      have hg' : Goal P op (pre ++ [name] ++ names ++ rest) := by simpa using hg
      have hrest := fun name hname => hnames name (List.mem_cons_of_mem _ hname)
      have happend : pre ++ name :: names = pre ++ [name] ++ names := by simp
      rw [happend]
      cases found with
      | some child =>
        obtain ⟨found, hfound, hspec⟩ := findChild_spec ht.directory hthere name
        cases hfind.symm.trans hfound
        have hchild := (hspec child).mp rfl
        obtain ⟨hr', hat'⟩ := (ih hg' hrest hr fun _ =>
          Directory.leads_append.mpr ⟨e, hl, hchild⟩).result hw
        exact ⟨hr', fun x hx => ⟨(hat' x hx).1, fun _ => (hat' x hx).2 (hchild.exists_node hthere)⟩⟩
      | none =>
        obtain ⟨⟨h₁, child⟩, ha, hw⟩ := bind_eq_ok.mp hw
        have hname : LegalName P name :=
          ⟨fun h => hlen (.inl h), Nat.lt_of_not_le fun h => hlen (.inr h),
            hnames name List.mem_cons_self⟩
        have hstep := TreeStep.create ha hname hfind
        have hr₁ := act_run hr hstep (.create (by simpa using hg) hl)
        obtain ⟨p, hp, rfl, hdir⟩ := directory_addChild ha hname
        have hchild : h₁.directory.Leads rootPtr (pre ++ [name]) h.nextEntry := by
          rw [hdir]
          exact Directory.leads_append.mpr ⟨e, hl.add (directory_of_entry hp) ht.next_none,
            Directory.leads_added (directory_of_entry hp) ht.next_none⟩
        have hroot := (hr₁.treeOk hb).exists_root
        obtain ⟨hr', hat'⟩ := (ih hg' hrest hr₁ fun _ => hchild).result hw
        exact ⟨hr', fun x hx => ⟨(hat' x hx).1, fun _ => (hat' x hx).2 (hchild.exists_node hroot)⟩⟩

theorem run_goToEntry (rest : List CString) (hb : TreeOk P b)
    (hg : Goal P op (pre ++ pathElements path ++ rest))
    (hr : TreeRun P (Allowed P op b) b h) (hat : At h pre base) :
    Returns (goToEntry P h base path true) fun p => TreeRun P (Allowed P op b) b p.1 ∧
      ∀ x, p.2 = some x → At p.1 (pre ++ pathElements path) x ∧
        (h.directory base ≠ none → p.1.directory x ≠ none) := by
  unfold goToEntry
  split
  · exact ⟨hr, by simp⟩
  · next hpath => exact run_walk hb hg (pathElements_names (by simpa using hpath)) hr hat

/-- What is found from an entry, which is there itself if something is found below it. -/
theorem at_findEntry (ht : TreeOk P h) (hat : At h pre base)
    (hf : resTreeFindEntry P h base path = .ok (some e)) : At h (pre ++ pathElements path) e := by
  intro he
  by_cases hbase : h.directory base = none
  · obtain ⟨found, hgo, hf⟩ := bind_eq_ok.mp hf
    unfold goToEntry at hgo
    split at hgo
    · cases hgo
      cases hf
    · cases hp : pathElements path with
      | nil =>
        rw [hp] at hgo
        cases hgo
        cases hf
        exact absurd hbase he
      | cons name names =>
        rw [hp] at hgo
        unfold walk at hgo
        split at hgo
        · cases hgo
          cases hf
        · obtain ⟨_, hfind, _⟩ := bind_eq_ok.mp hgo
          exact absurd hbase (findChild_exists hfind)
  · obtain ⟨found, hfound, hspec⟩ := findEntry_spec ht.directory hbase path
    cases hf.symm.trans hfound
    exact Directory.leads_append.mpr ⟨base, hat hbase, (hspec e).mp rfl⟩

theorem leads_of_entry {entry : Entry} (hat : At h names e) (he : h.entries e = some entry) :
    h.directory.Leads rootPtr names e :=
  hat (by simp [directory_of_entry he])

/-! ### Creating and deleting resources -/

theorem run_resTreeGetResource (hb : TreeOk P b) (hop : path ∈ op.resources)
    (hr : TreeRun P (Allowed P op b) b h) :
    Returns (resTreeGetResource P h rootPtr path) fun p => TreeRun P (Allowed P op b) b p.1 := by
  have hg : Goal P op ([] ++ pathElements path ++ []) := by simpa using Goal.resource hop
  unfold resTreeGetResource
  refine (run_goToEntry _ hb hg hr (at_root h)).bind ?_
  rintro ⟨h₁, found⟩ ⟨hr₁, hat⟩
  cases found with
  | none => exact hr₁
  | some e =>
    refine Returns.of_ok fun p hp => ?_
    obtain ⟨entry, he, hp⟩ := bind_eq_ok.mp hp
    rw [getEntry_ok] at he
    split at hp
    · next hns =>
      obtain ⟨⟨h₂, r⟩, hrep, hp⟩ := bind_eq_ok.mp hp
      cases hp
      obtain ⟨entry', hret⟩ := (retyped_replaceResource _ _ _ _).result hrep
      cases he.symm.trans hret.was
      exact act_run hr₁ (.settle hns hret) (.settle hop (leads_of_entry (hat e rfl).1 he))
    · cases hp
      exact hr₁

/-- A new resource is announced after it has been attached. -/
theorem addStep {told : Hub} {entry : Entry} (ht : entry.type.special = false)
    (het : et.special = true) (hret : Retyped h h' e entry et (some r) [])
    (htell : callResourceTreeChangeHandlers P h' e et .added = .ok told) :
    TreeStep P h (.add e et) told := by
  obtain ⟨path, hp, htold⟩ := (told_treeChange _ _ _ _).result htell
  exact .add ht het (hp.congr hret.directory) (hret.tell htold)

theorem run_getIo {create : EntryRef → Resource} (hb : TreeOk P b) (hop : op.creates = some et)
    (het : et.special = true) (hg : Goal P op (pre ++ pathElements path))
    (hr : TreeRun P (Allowed P op b) b h) (hat : At h pre base) :
    Returns (getIo P create et h base path) fun p => TreeRun P (Allowed P op b) b p.1 := by
  unfold getIo
  refine (run_goToEntry [] hb (by simpa using hg) hr hat).bind ?_
  rintro ⟨h₁, found⟩ ⟨hr₁, hat₁⟩
  cases found with
  | none => exact hr₁
  | some e =>
    refine Returns.of_ok fun p hp => ?_
    obtain ⟨entry, he, hp⟩ := bind_eq_ok.mp hp
    rw [getEntry_ok] at he
    have hadd : ∀ {q : Hub × Option EntryRef}, entry.type.special = false → (do
        let added ← replaceResource P h₁ e (create e) et
        let h ← callResourceTreeChangeHandlers P added.1 e et .added
        pure (h, some e)) = .ok q → TreeRun P (Allowed P op b) b q.1 := by
      intro q ht hq
      obtain ⟨⟨h₂, r⟩, hrep, hq⟩ := bind_eq_ok.mp hq
      obtain ⟨h₃, htell, hq⟩ := bind_eq_ok.mp hq
      cases hq
      obtain ⟨entry', hret⟩ := (retyped_replaceResource _ _ _ _).result hrep
      cases he.symm.trans hret.was
      exact act_run hr₁ (addStep ht het hret htell)
        (.add hop hg (leads_of_entry (hat₁ e rfl).1 he))
    split at hp
    · next ht => exact hadd (by rw [ht]; rfl) hp
    · next ht => exact hadd (by rw [ht]; rfl) hp
    all_goals
      cases hp
      exact hr₁

theorem run_resTreeGetObservation (fuel : Nat) (hb : TreeOk P b)
    (hop : op.creates = some .observation) (hg : Goal P op (pre ++ pathElements path))
    (hr : TreeRun P (Allowed P op b) b h) (hat : At h pre base) :
    Returns (resTreeGetObservation P fuel h base path) fun p =>
      TreeRun P (Allowed P op b) b p.1 := by
  unfold resTreeGetObservation
  refine (run_goToEntry [] hb (by simpa using hg) hr hat).bind ?_
  rintro ⟨h₁, found⟩ ⟨hr₁, hat₁⟩
  cases found with
  | none => exact hr₁
  | some e =>
    refine Returns.of_ok fun p hp => ?_
    obtain ⟨entry, he, hp⟩ := bind_eq_ok.mp hp
    rw [getEntry_ok] at he
    have hadd : ∀ {q : Hub × Option EntryRef}, entry.type.special = false → (do
        let added ← replaceResource P h₁ e (resCreateObservation e) .observation
        let h ← resRestoreBackup P fuel added.1 added.2
        let h ← callResourceTreeChangeHandlers P h e .observation .added
        pure (h, some e)) = .ok q → TreeRun P (Allowed P op b) b q.1 := by
      intro q ht hq
      obtain ⟨⟨h₂, r⟩, hrep, hq⟩ := bind_eq_ok.mp hq
      obtain ⟨h₃, hrestore, hq⟩ := bind_eq_ok.mp hq
      obtain ⟨h₄, htell, hq⟩ := bind_eq_ok.mp hq
      cases hq
      obtain ⟨entry', hret⟩ := (retyped_replaceResource _ _ _ _).result hrep
      cases he.symm.trans hret.was
      have hcalm := (calm_resRestoreBackup fuel (Calm.refl h₂) r).result hrestore
      exact act_run hr₁ (addStep ht rfl (hret.calm hcalm) htell)
        (.add hop hg (leads_of_entry (hat₁ e rfl).1 he))
    split at hp
    · next ht => exact hadd (by rw [ht]; rfl) hp
    · next ht => exact hadd (by rw [ht]; rfl) hp
    all_goals
      cases hp
      exact hr₁

theorem run_resTreeDeleteIO {entry : Entry} (hr : TreeRun P (Allowed P op b) b h)
    (he : h.entries e = some entry) (hio : entry.type.isIo = true)
    (hunplug : Allowed P op b h (.unplug e)) (hfree : Allowed P op b h (.free e entry.type)) :
    Returns ( resTreeDeleteIO P h e) (TreeRun P (Allowed P op b) b) := by
  refine Returns.of_ok fun h' hd => ?_
  obtain ⟨r, hattached, hd⟩ := bind_eq_ok.mp hd
  obtain ⟨entry', he', hd⟩ := bind_eq_ok.mp hd
  cases he.symm.trans (getEntry_ok.mp he')
  obtain ⟨h₁, htell, hd⟩ := bind_eq_ok.mp hd
  obtain ⟨path, hp, htold⟩ := (told_treeChange _ _ _ _).result htell
  obtain ⟨x, _, hd⟩ := bind_eq_ok.mp hd
  split at hd
  · obtain ⟨⟨h₂, r'⟩, hrep, hd⟩ := bind_eq_ok.mp hd
    cases hd
    obtain ⟨entry', hret⟩ := (retyped_replaceResource _ _ _ _).result hrep
    cases he.symm.trans (htold.entries ▸ hret.was)
    exact act_run hr (.unplug hio hp (htold.retyped hret)) hunplug
  · obtain ⟨h₂, hdetach, hd⟩ := bind_eq_ok.mp hd
    obtain ⟨h₃, hrelease, hrel⟩ := bind_eq_ok.mp hd
    obtain ⟨entry', hret⟩ := (retyped_modify _ _ _ _).result hdetach
    cases he.symm.trans (htold.entries ▸ hret.was)
    have hcalm := (calm_releaseResource (Calm.refl h₂) r).result hrelease
    obtain ⟨entry', he', hptr⟩ := (sat_attachedTo h e).result hattached
    cases he.symm.trans he'
    exact act_run hr (.free hptr hp ((htold.retyped hret).calm hcalm) hrel) hfree

theorem run_resTreeDeleteObservation (fuel : Nat) (hr : TreeRun P (Allowed P op b) b h)
    (hfree : Allowed P op b h (.free e .observation)) :
    Returns (resTreeDeleteObservation P fuel h e) (TreeRun P (Allowed P op b) b) := by
  refine Returns.of_ok fun h' hd => ?_
  obtain ⟨h₁, htell, hd⟩ := bind_eq_ok.mp hd
  obtain ⟨path, hp, htold⟩ := (told_treeChange _ _ _ _).result htell
  obtain ⟨r, hattached, hd⟩ := bind_eq_ok.mp hd
  obtain ⟨h₂, hdelete, hd⟩ := bind_eq_ok.mp hd
  obtain ⟨h₃, hdetach, hrel⟩ := bind_eq_ok.mp hd
  obtain ⟨entry, hret⟩ := (retyped_modify _ _ _ _).result hdetach
  have hcalm := (calm_resDeleteObservation fuel (Calm.refl h₁) r).result hdelete
  have hret := htold.retyped (hcalm.told.retyped hret)
  obtain ⟨entry', he', hptr⟩ := (sat_attachedTo h₁ e).result hattached
  cases (htold.entries ▸ he').symm.trans hret.was
  exact act_run hr (.free hptr hp hret hrel) hfree

/-! ### Operations that leave the tree as it is -/

theorem calm_resTreePush (fuel : Nat) (hc : Calm b h) (e : EntryRef) (t : DataType)
    (s : DataSample) : Returns (resTreePush P fuel h e t s) (Calm b) := by
  unfold resTreePush
  refine Returns.skip fun entry => ?_
  split
  · exact hc
  · exact Returns.skip fun r => calm_resPush fuel hc r _ _ _

theorem calm_resTreeSetSource (fuel : Nat) (hc : Calm b h) (dest : EntryRef)
    (src : Option EntryRef) :
    Returns (resTreeSetSource P fuel h dest src) fun p => Calm b p.1 := by
  unfold resTreeSetSource
  refine Returns.skip fun entry => ?_
  split
  · exact id
  · refine Returns.skip fun r => ?_
    cases src with
    | none => exact calm_resSetSource fuel hc r none
    | some src => exact Returns.skip fun entry => calm_resSetSource fuel hc r _

theorem calm_forEachResourceUnder {func : Hub → ResRef → Except Fault Hub}
    (hfunc : ∀ h r, Calm b h → Returns (func h r) (Calm b)) (fuel : Nat) (hc : Calm b h)
    (e : EntryRef) : Returns (forEachResourceUnder func fuel h e) (Calm b) := by
  induction fuel generalizing h e with
  | zero =>
    unfold forEachResourceUnder
    exact id
  | succ fuel ih =>
    unfold forEachResourceUnder
    refine Returns.skip fun entry => Sat.foldlM hc fun h₁ c _ hc₁ => ?_
    refine Sat.bind (Q := Calm b) ?_ fun h₂ hc₂ => ih hc₂ c
    unfold forEachResourceUnder.apply
    refine Returns.skip fun child => ?_
    split
    · exact hfunc h₁ _ hc₁
    · exact hc₁

theorem calm_resEndUpdate (hc : Calm b h) : Returns (resEndUpdate P h) (Calm b) := by
  unfold resEndUpdate
  have hended : Calm b { h.emit .endingUpdate with isUpdateInProgress := false } :=
    (hc.emit rfl).trans ⟨rfl, rfl, rfl, rfl⟩
  refine (calm_forEachResourceUnder (fun h r hc => hc.modifyResource r _) _ hended rootPtr).bind
    fun h₁ hc₁ => ?_
  unfold obsDeleteUnusedBackupFiles
  split
  · refine Sat.foldlM hc₁ fun h₂ path _ hc₂ => ?_
    unfold deleteIfUnused
    split
    · exact hc₂
    · split
      · exact hc₂
      · refine Returns.skip fun found => Returns.skip fun used => ?_
        cases used with
        | true => exact hc₂
        | false => exact hc₂.trans ⟨rfl, rfl, rfl, rfl⟩
  · exact hc₁

theorem calm_atResource {act : ResRef → Except Fault Hub} (hc : Calm b h)
    (hact : ∀ r, Returns (act r) (Calm b)) (found : Option EntryRef) :
    Returns (atResource h found act) (Calm b) := by
  unfold atResource
  cases found with
  | none => exact hc
  | some e =>
    refine Returns.skip fun entry => ?_
    split
    · exact hc
    · exact hact _

theorem calm_queryReadBufferJson (hc : Calm b h) (path : CString) (startAfter : Double)
    (nonBlocking : Bool) (script : List WriteResult) :
    Returns (queryReadBufferJson P h path startAfter nonBlocking script) (Calm b) := by
  unfold queryReadBufferJson
  refine Returns.skip fun found => ?_
  cases found with
  | none => exact hc
  | some e =>
    dsimp only
    split
    · exact hc
    · refine Returns.skip fun r => ?_
      have hnext : Calm b { h with nextRead := h.nextRead + 1 } := hc.trans ⟨rfl, rfl, rfl, rfl⟩
      split
      · exact calm_modifyObs hnext r _
      · exact hnext.emit rfl

theorem calm_backupTimerExpired (hc : Calm b h) (r : ResRef) :
    Returns (backupTimerExpired P h r) (Calm b) := by
  unfold backupTimerExpired
  split
  · split
    · split
      · exact calm_modifyObs hc r _
      · exact hc
    · exact hc
  · split
    · exact id
    · exact hc

theorem calm_fdEvent (hc : Calm b h) (r : ResRef) (id : Nat) (hangUp : Bool)
    (script : List WriteResult) : Returns (fdEvent P h r id hangUp script) (Calm b) := by
  unfold fdEvent
  split
  · split
    · exact calm_modifyObs hc r _
    · exact hc
  · exact hc

/-- What leaves the tree as it is goes into every run. -/
theorem run_calm {x : Except Fault Hub} (hr : TreeRun P (Allowed P op b) b h)
    (hc : Returns x (Calm h)) : Returns x (TreeRun P (Allowed P op b) b) :=
  hc.mono fun _ hc => calm_run hr hc

/-! ### The I/O service -/

theorem run_hubGetClientNamespace {session : Nat} (hb : TreeOk P b) (hsess : SessionsOk P b)
    (hop : op.client = some (session, path)) :
    Returns (hubGetClientNamespace P b session) fun p => TreeRun P (Allowed P op b) b p.1 ∧
      ∀ ns, p.2 = some ns → ∃ appName, P.appName session = some appName ∧
        At p.1 (clientNames appName) ns := by
  unfold hubGetClientNamespace
  split
  · next ns hns =>
    refine ⟨.refl, ?_⟩
    rintro _ ⟨⟩
    exact (hsess session ns hns).2
  · split
    · exact ⟨.refl, by simp⟩
    · next appName happ =>
      have hg : Goal P op (clientNames appName ++ pathElements path) := .client hop happ
      have happPath : pathElements (ascii "app") = [ascii "app"] := by decide
      refine (run_goToEntry (pathElements appName ++ pathElements path) hb
        (by simpa [happPath, clientNames] using hg) .refl (at_root b)).bind ?_
      rintro ⟨h₁, app⟩ ⟨hr₁, hat₁⟩
      cases app with
      | none => exact id
      | some app =>
        obtain ⟨hat₁, hthere₁⟩ := hat₁ app rfl
        rw [happPath] at hat₁
        refine (run_goToEntry (pathElements path) hb
          (by simpa [clientNames] using hg) hr₁ hat₁).bind ?_
        rintro ⟨h₂, ns⟩ ⟨hr₂, hat₂⟩
        have hplace : ∀ e, ns = some e → h₂.directory.Leads rootPtr (clientNames appName) e :=
          fun e he => (hat₂ e he).1 ((hat₂ e he).2 (hthere₁ hb.exists_root))
        exact ⟨act_run hr₂ (.cache session ns) (.cache hop happ hplace),
          fun e he => ⟨appName, happ, fun _ => hplace e he⟩⟩

/-- `FindResource` finds the Input or Output at the path. -/
theorem run_ioFindResource {session : Nat} (hb : TreeOk P b) (hsess : SessionsOk P b)
    (hop : op.client = some (session, path)) :
    Returns (ioFindResource P b session path) fun p => TreeRun P (Allowed P op b) b p.1 ∧
      ∀ e, p.2 = some e → ∃ names entry, Goal P op names ∧ p.1.directory.Leads rootPtr names e ∧
        p.1.entries e = some entry ∧ entry.type.isIo = true := by
  unfold ioFindResource
  refine (run_hubGetClientNamespace hb hsess hop).bind ?_
  rintro ⟨h₁, ns⟩ ⟨hr₁, hat⟩
  cases ns with
  | none => exact ⟨hr₁, by simp⟩
  | some ns =>
    obtain ⟨appName, happ, hat⟩ := hat ns rfl
    refine Returns.of_ok fun p hp => ?_
    obtain ⟨found, hfind, hp⟩ := bind_eq_ok.mp hp
    cases found with
    | none =>
      cases hp
      exact ⟨hr₁, by simp⟩
    | some e =>
      obtain ⟨entry, he, hp⟩ := bind_eq_ok.mp hp
      rw [getEntry_ok] at he
      cases hp
      refine ⟨hr₁, fun e' he' => ?_⟩
      dsimp only at he'
      split at he'
      · next hio =>
        cases he'
        exact ⟨_, entry, .client hop happ,
          leads_of_entry (at_findEntry (hr₁.treeOk hb) hat hfind) he, he, hio⟩
      · cases he'

/-- An operation on an Input or Output that leaves the tree as it is. -/
theorem run_onIo {session : Nat} {act : Hub × Option EntryRef → Except Fault Hub}
    (hb : TreeOk P b) (hsess : SessionsOk P b) (hop : op.client = some (session, path))
    (hnone : ∀ h, act (h, none) = pure h) (hsome : ∀ h e, Returns (act (h, some e)) (Calm h)) :
    Returns (ioFindResource P b session path >>= act) (TreeRun P (Allowed P op b) b) := by
  refine (run_ioFindResource hb hsess hop).bind ?_
  rintro ⟨h₁, found⟩ ⟨hr₁, _⟩
  cases found with
  | none =>
    rw [hnone]
    exact hr₁
  | some e => exact (hsome h₁ e).mono fun _ hc => calm_run hr₁ hc

theorem run_ioCreate {get : Hub → EntryRef → Except Fault (Hub × Option EntryRef)}
    {session : Nat} (hb : TreeOk P b) (hsess : SessionsOk P b)
    (hop : op.client = some (session, path))
    (hget : ∀ h ns pre, Goal P op (pre ++ pathElements path) → TreeRun P (Allowed P op b) b h →
      At h pre ns → Returns (get h ns) fun p => TreeRun P (Allowed P op b) b p.1)
    (type : EntryType) (t : DataType) (units : CString) :
    Returns (ioCreate P get type b session path t units) fun p =>
      TreeRun P (Allowed P op b) b p.1 := by
  unfold ioCreate
  refine (run_hubGetClientNamespace hb hsess hop).bind ?_
  rintro ⟨h₁, ns⟩ ⟨hr₁, hat⟩
  cases ns with
  | none => exact id
  | some ns =>
    obtain ⟨appName, happ, hat⟩ := hat ns rfl
    refine Returns.skip fun found => Returns.skip fun conflict => ?_
    cases conflict with
    | some result => exact hr₁
    | none => exact (hget h₁ ns _ (.client hop happ) hr₁ hat).bind fun p hp => hp

theorem run_ioDeleteResource {session : Nat} (hb : TreeOk P b) (hsess : SessionsOk P b) :
    Returns (ioDeleteResource P b session path)
      (TreeRun P (Allowed P (.ioDeleteResource session path) b) b) := by
  have hop : (Op.ioDeleteResource session path).client = some (session, path) := rfl
  unfold ioDeleteResource
  refine (run_ioFindResource hb hsess hop).bind ?_
  rintro ⟨h₁, found⟩ ⟨hr₁, hfound⟩
  cases found with
  | none => exact hr₁
  | some e =>
    obtain ⟨names, entry, hg, hl, he, hio⟩ := hfound e rfl
    exact run_resTreeDeleteIO hr₁ he hio (.unplug rfl hg hl) (.freeIo rfl hg hl he hio)

theorem calm_ioPush {ts : Double} {value : Argument} (fuel : Nat) (h : Hub) (e : EntryRef) :
    Returns (if isValidArgument P value then do
      let s ← createFromArgument h.env ts value
      resTreePush P fuel h e value.type s
    else pure h) (Calm h) := by
  split
  · exact Returns.skip fun s => calm_resTreePush fuel (Calm.refl h) e _ s
  · exact Calm.refl h

theorem run_ioSetJsonExample {session : Nat} {text : CString} (fuel : Nat) (hb : TreeOk P b)
    (hsess : SessionsOk P b) : Returns (ioSetJsonExample P fuel b session path text)
      (TreeRun P (Allowed P (.ioSetJsonExample session path text) b) b) := by
  have hop : (Op.ioSetJsonExample session path text).client = some (session, path) := rfl
  refine run_onIo hb hsess hop (fun h => rfl) fun h e => ?_
  refine Returns.skip fun entry => ?_
  split
  · exact Calm.refl h
  · refine Returns.skip fun r => Returns.skip fun x => ?_
    split
    · exact Calm.refl h
    · exact Returns.skip fun s => calm_resSetJsonExample fuel (Calm.refl h) r s

theorem run_ioAddPushHandler {session : Nat} {t : DataType} (hb : TreeOk P b)
    (hsess : SessionsOk P b) : Returns (ioAddPushHandler P b session path t)
      (TreeRun P (Allowed P (.ioAddPushHandler session path t) b) b) := by
  have hop : (Op.ioAddPushHandler session path t).client = some (session, path) := rfl
  refine run_onIo hb hsess hop (fun h => rfl) fun h e => ?_
  refine Returns.skip fun r => (calm_resAddPushHandler (Calm.refl h) r t).bind ?_
  rintro ⟨h₁, p⟩ hc
  have hnoted : Calm h (h₁.emit (.registering r p)) := hc.emit rfl
  refine Returns.skip fun x => ?_
  split
  · exact calm_handlerCall hnoted p _ _
  · exact hnoted

theorem run_ioMarkOptional {session : Nat} (hb : TreeOk P b) (hsess : SessionsOk P b) :
    Returns (ioMarkOptional P b session path)
      (TreeRun P (Allowed P (.ioMarkOptional session path) b) b) := by
  have hop : (Op.ioMarkOptional session path).client = some (session, path) := rfl
  refine run_onIo hb hsess hop (fun h => rfl) fun h e => ?_
  refine Returns.skip fun entry => ?_
  split
  · exact Calm.refl h
  · exact Returns.skip fun r => calm_resMarkOptional (Calm.refl h) r

theorem run_ioSetDefault {session : Nat} {value : Argument} (fuel : Nat) (hb : TreeOk P b)
    (hsess : SessionsOk P b) : Returns (ioSetDefault P fuel b session path value)
      (TreeRun P (Allowed P (.ioSetDefault session path value) b) b) := by
  have hop : (Op.ioSetDefault session path value).client = some (session, path) := rfl
  refine run_onIo hb hsess hop (fun h => rfl) fun h e => ?_
  refine Returns.skip fun r => Returns.skip fun x => ?_
  split
  · exact Calm.refl h
  · exact Returns.skip fun s => calm_resSetDefault fuel (Calm.refl h) r _ s

/-! ### The Admin service -/

theorem run_adminAddPushHandler {t : DataType} (hb : TreeOk P b) :
    Returns (adminAddPushHandler P b path t)
      (TreeRun P (Allowed P (.adminAddPushHandler path t) b) b) := by
  have hop : path ∈ (Op.adminAddPushHandler path t).resources := List.mem_singleton.mpr rfl
  refine (run_resTreeGetResource hb hop .refl).bind ?_
  rintro ⟨h₁, found⟩ hr₁
  cases found with
  | none => exact hr₁
  | some e =>
    refine Returns.skip fun r => ?_
    exact (calm_resAddPushHandler (Calm.refl h₁) r t).bind fun p hc => calm_run hr₁ hc

theorem run_adminSetSource {dest src : CString} (fuel : Nat) (hb : TreeOk P b) :
    Returns (adminSetSource P fuel b dest src) fun p =>
      TreeRun P (Allowed P (.adminSetSource dest src) b) b p.1 := by
  have hdest : dest ∈ (Op.adminSetSource dest src).resources := List.mem_cons_self
  have hsrc : src ∈ (Op.adminSetSource dest src).resources :=
    List.mem_cons_of_mem _ List.mem_cons_self
  refine (run_resTreeGetResource hb hdest .refl).bind ?_
  rintro ⟨h₁, destEntry⟩ hr₁
  cases destEntry with
  | none => exact hr₁
  | some destEntry =>
    refine (run_resTreeGetResource hb hsrc hr₁).bind ?_
    rintro ⟨h₂, srcEntry⟩ hr₂
    cases srcEntry with
    | none => exact hr₂
    | some srcEntry =>
      exact (calm_resTreeSetSource fuel (Calm.refl h₂) destEntry (some srcEntry)).mono
        fun p hc => calm_run hr₂ hc

theorem run_adminSetValue {set : Hub → ResRef → DataType → DataSample → Except Fault Hub}
    {value : Argument} (hb : TreeOk P b) (hop : path ∈ op.resources)
    (hset : ∀ h r t s, Returns (set h r t s) (Calm h)) :
    Returns (adminSetValue P set b path value) (TreeRun P (Allowed P op b) b) := by
  unfold adminSetValue
  split
  · refine Returns.skip fun s => (run_resTreeGetResource hb hop .refl).bind ?_
    rintro ⟨h₁, found⟩ hr₁
    cases found with
    | none => exact hr₁
    | some e => exact Returns.skip fun r => run_calm hr₁ (hset h₁ r _ s)
  · exact .refl

theorem run_adminGetObservation (fuel : Nat) (hb : TreeOk P b) (hop : op.observation = some path)
    (hcreates : op.creates = some .observation) :
    Returns (adminGetObservation P fuel b path) fun p => TreeRun P (Allowed P op b) b p.1 := by
  unfold adminGetObservation
  split
  · exact .refl
  · next rest hrest =>
    have hg : Goal P op (ascii "obs" :: pathElements rest) := .observation hop hrest
    refine (run_goToEntry (pathElements rest) hb (by simpa [pathElements_obs] using hg)
      .refl (at_root b)).bind ?_
    rintro ⟨h₁, ns⟩ ⟨hr₁, hat₁⟩
    cases ns with
    | none => exact id
    | some ns =>
      refine run_resTreeGetObservation fuel hb hcreates ?_ hr₁ (hat₁ ns rfl).1
      simpa [pathElements_obs] using hg

theorem run_adminSet {set : Hub → ResRef → Except Fault Hub} (fuel : Nat) (hb : TreeOk P b)
    (hop : op.observation = some path) (hcreates : op.creates = some .observation)
    (hset : ∀ h r, Returns (set h r) (Calm h)) :
    Returns (adminSet P set fuel b path) (TreeRun P (Allowed P op b) b) := by
  unfold adminSet
  refine (run_adminGetObservation fuel hb hop hcreates).bind ?_
  rintro ⟨h₁, obs⟩ hr₁
  cases obs with
  | none => exact hr₁
  | some e => exact Returns.skip fun r => run_calm hr₁ (hset h₁ r)

theorem run_adminDeleteObs (fuel : Nat) (hb : TreeOk P b) :
    Returns (adminDeleteObs P fuel b path) (TreeRun P (Allowed P (.adminDeleteObs path) b) b) := by
  rw [adminDeleteObs_eq]
  obtain ⟨found, htarget, hfound⟩ := deleteTarget_spec hb.toSearchable path
  rw [htarget, ok_bind]
  cases found with
  | none => exact .refl
  | some e => exact run_resTreeDeleteObservation fuel .refl (.freeObs rfl rfl ((hfound e).mp rfl))

/-- Every operation changes the tree by its acts. -/
theorem run_step (fuel : Nat) (hb : TreeOk P b) (hsess : SessionsOk P b) (op : Op) :
    Returns (step P fuel b op) (TreeRun P (Allowed P op b) b) := by
  have hcalm : ∀ {x : Except Fault Hub}, Returns x (Calm b) →
      Returns x (TreeRun P (Allowed P op b) b) := run_calm .refl
  cases op with
  | ioCreateInput session path t units =>
    refine sat_map_iff.mpr (run_ioCreate hb hsess rfl (fun h ns pre hg hr hat => ?_) .input t units)
    exact run_getIo hb rfl rfl hg hr hat
  | ioCreateOutput session path t units =>
    refine sat_map_iff.mpr (run_ioCreate hb hsess rfl
      (fun h ns pre hg hr hat => ?_) .output t units)
    exact run_getIo hb rfl rfl hg hr hat
  | ioDeleteResource session path => exact run_ioDeleteResource hb hsess
  | ioPush session path ts value =>
    exact run_onIo hb hsess rfl (fun h => rfl) fun h e => calm_ioPush fuel h e
  | ioSetJsonExample session path text => exact run_ioSetJsonExample fuel hb hsess
  | ioAddPushHandler session path t => exact run_ioAddPushHandler hb hsess
  | ioMarkOptional session path => exact run_ioMarkOptional hb hsess
  | ioSetDefault session path value => exact run_ioSetDefault fuel hb hsess
  | removePushHandler p => exact hcalm (calm_handlerRemove (Calm.refl b) p)
  | adminPush path ts value =>
    refine hcalm (Returns.skip fun found => ?_)
    cases found with
    | none => exact Calm.refl b
    | some e => exact calm_ioPush fuel b e
  | adminAddPushHandler path t => exact run_adminAddPushHandler hb
  | adminSetSource dest src => exact sat_map_iff.mpr (run_adminSetSource fuel hb)
  | adminRemoveSource dest =>
    refine hcalm (Returns.skip fun found => calm_atResource (Calm.refl b) (fun r => ?_) found)
    exact (calm_resSetSource fuel (Calm.refl b) r none).bind fun p hc => hc
  | adminCreateObs path =>
    refine sat_map_iff.mpr ?_
    exact (run_adminGetObservation fuel hb rfl rfl).bind fun p hr => hr
  | adminDeleteObs path => exact run_adminDeleteObs fuel hb
  | adminSetMinPeriod path v =>
    exact run_adminSet fuel hb rfl rfl fun h r => calm_setFilter (Calm.refl h) r _
  | adminSetHighLimit path v =>
    exact run_adminSet fuel hb rfl rfl fun h r => calm_setFilter (Calm.refl h) r _
  | adminSetLowLimit path v =>
    exact run_adminSet fuel hb rfl rfl fun h r => calm_setFilter (Calm.refl h) r _
  | adminSetChangeBy path v =>
    exact run_adminSet fuel hb rfl rfl fun h r => calm_setFilter (Calm.refl h) r _
  | adminSetTransform path v =>
    exact run_adminSet fuel hb rfl rfl fun h r => calm_resSetTransform (Calm.refl h) r v
  | adminSetBufferMaxCount path v =>
    exact run_adminSet fuel hb rfl rfl fun h r => calm_modifyObs (Calm.refl h) r _
  | adminSetBufferBackupPeriod path v =>
    exact run_adminSet fuel hb rfl rfl fun h r => calm_modifyObs (Calm.refl h) r _
  | adminSetJsonExtraction path v =>
    exact run_adminSet fuel hb rfl rfl fun h r => calm_resSetJsonExtraction (Calm.refl h) r v
  | adminSetDefault path value =>
    refine run_adminSetValue hb (List.mem_singleton.mpr rfl) fun h r t s => ?_
    exact calm_resSetDefault fuel (Calm.refl h) r t s
  | adminRemoveDefault path =>
    refine hcalm (Returns.skip fun found => calm_atResource (Calm.refl b) (fun r => ?_) found)
    exact (Calm.refl b).modifyResource r _
  | adminSetOverride path value =>
    refine run_adminSetValue hb (List.mem_singleton.mpr rfl) fun h r t s => ?_
    exact calm_resSetOverride fuel (Calm.refl h) r t s
  | adminRemoveOverride path =>
    refine hcalm (Returns.skip fun found => calm_atResource (Calm.refl b) (fun r => ?_) found)
    exact calm_resRemoveOverride fuel (Calm.refl b) r
  | startUpdate => exact hcalm (x := pure (resStartUpdate b)) ⟨rfl, rfl, rfl, rfl⟩
  | endUpdate => exact hcalm (calm_resEndUpdate (Calm.refl b))
  | queryReadBufferJson path startAfter nonBlocking script =>
    exact hcalm (calm_queryReadBufferJson (Calm.refl b) path startAfter nonBlocking script)
  | queryBuffer path query => exact Returns.skip fun _ => .refl
  | backupTimerExpired r => exact hcalm (calm_backupTimerExpired (Calm.refl b) r)
  | fdEvent r id hangUp script => exact hcalm (calm_fdEvent (Calm.refl b) r id hangUp script)
  | environment env => exact hcalm (x := pure { b with env }) ⟨rfl, rfl, rfl, rfl⟩

/-! ### Runs under a condition -/

/-- The states that are reached by operations each of which meets a condition when it is called. -/
inductive ReachableIf (P : Platform) (ok : Hub → Op → Prop) : Hub → Prop
  | boot (env : Environment) (files : List (CString × Bytes)) : ReachableIf P ok (boot env files)
  | step {h h' : Hub} (fuel : Nat) (op : Op) (hr : ReachableIf P ok h) (hok : ok h op)
      (hs : DataHub.step P fuel h op = .ok h') : ReachableIf P ok h'

theorem ReachableIf.reachable {ok : Hub → Op → Prop} (hr : ReachableIf P ok h) :
    Reachable P h := by
  induction hr with
  | boot env files => exact .boot env files
  | step fuel op _ _ hs ih => exact .step fuel op ih hs

/-- A run of operations that meet the condition wherever they are called. -/
theorem reachableIf_run {ok : Hub → Op → Prop} {fuel : Nat} {ops : List Op}
    (hr : ReachableIf P ok h) (hok : ∀ op ∈ ops, ∀ h, ok h op)
    (hs : run P fuel h ops = .ok h') : ReachableIf P ok h' := by
  have hall : Returns (run P fuel h ops) (ReachableIf P ok) :=
    Sat.foldlM hr fun h op hop hr => Returns.of_ok fun _ hs => .step fuel op hr (hok op hop h) hs
  exact hall.result hs

theorem sessionsOk_boot (env : Environment) (files : List (CString × Bytes)) :
    SessionsOk P (boot env files) := by
  intro session ns hns
  cases hns

/-- What holds at first and is kept by the acts of every operation that meets the condition. -/
theorem reachableIf_induction {ok : Hub → Op → Prop} {Q : Hub → Prop}
    (hboot : ∀ env files, Q (boot env files))
    (hstep : ∀ b op h, TreeOk P b → SessionsOk P b → Q b → ok b op →
      TreeRun P (Allowed P op b) b h → Q h)
    (hr : ReachableIf P ok h) : TreeOk P h ∧ SessionsOk P h ∧ Q h := by
  induction hr with
  | boot env files => exact ⟨treeOk_boot env files, sessionsOk_boot env files, hboot env files⟩
  | step fuel op _ hok hs ih =>
    obtain ⟨ht, hsess, hq⟩ := ih
    have hrun := (run_step fuel ht hsess op).result hs
    obtain ⟨ht', hsess', _⟩ := treeRun_induction (Q := fun _ => True) caches_allowed ht hsess
      trivial (fun _ _ _ _ _ => trivial) (fun _ _ _ _ _ _ _ _ => trivial) hrun
    exact ⟨ht', hsess', hstep _ _ _ ht hsess hq hok hrun⟩

end MangOH.DataHub
