import Mathlib.Data.List.DropRight
import MangOH.DataHub.EntryPaths

/-! The backup files of Observations: where they are, and which Observation each of them is for. -/
namespace MangOH.DataHub

open Outcome

section Definitions

variable (P : Platform)

/-- The path of an Observation relative to the `/obs` namespace. -/
def relPath (names : List CString) : CString := (pathOf names).tail

/-- The backup file of an Observation. -/
def backupFile (names : List CString) : CString := backupDir P ++ relPath names ++ backupSuffix

/-- The directory of a file, with the slash behind it. -/
def dirOf (path : CString) : CString := path.rdropWhile (· ≠ 0x2f)

/-- The directories that exist. The one that the backup directory is created in is among them. -/
structure Directories where
  paths : List CString
  home : dirOf (backupDir P).dropLast ∈ paths

variable {P} in
/-- `Backup` makes the backup directory if it does not exist already. -/
def Directories.withBackupDir (dirs : Directories P) : Directories P :=
  if backupDir P ∈ dirs.paths then dirs
  else ⟨backupDir P :: dirs.paths, List.mem_cons_of_mem _ dirs.home⟩

/-- A file can be created only in a directory that exists. -/
def createFile (dirs : Directories P) (path : CString) : Bool := decide (dirOf path ∈ dirs.paths)

/-- `Backup`, with the directories that it finds. -/
def backupIn (dirs : Directories P) (ctx : ObsContext) (o : Observation) :
    Except Fault (Directories P × Observation × List ObsEvent) :=
  let started : ObsEvent := .backingUp ctx.currentType o.bufferedType o.samples
  let o := { o with backupTimer := false, lastBackupTime := ctx.env.relSec % 2 ^ 32 }
  match getBackupFilePath P (maxBackupFilePathBytes P) ctx with
  | none => pure (dirs, o, [started])
  | some path =>
    if !createFile P dirs.withBackupDir path then pure (dirs.withBackupDir, o, [started])
    else do
      match ← backupContent ctx.currentType o with
      | none => pure (dirs.withBackupDir, o, [started])
      | some content => pure (dirs.withBackupDir, o, [started, .committed path content])

/-- `fileSystemUp` stands for the file that can be created. -/
theorem backupIn_eq {P : Platform} {dirs : Directories P} {ctx : ObsContext} {o : Observation}
    {path : CString} (hpath : getBackupFilePath P (maxBackupFilePathBytes P) ctx = some path) :
    backupIn P dirs ctx o = (backup P { ctx with env := { ctx.env with
      fileSystemUp := createFile P dirs.withBackupDir path } } o).map
        fun done => (dirs.withBackupDir, done) := by
  have hpath' : getBackupFilePath P (maxBackupFilePathBytes P) { ctx with env := { ctx.env with
      fileSystemUp := createFile P dirs.withBackupDir path } } = some path := hpath
  unfold backupIn backup
  rw [hpath, hpath']
  dsimp only
  split
  · rfl
  · cases backupContent ctx.currentType
      { o with backupTimer := false, lastBackupTime := ctx.env.relSec % 2 ^ 32 } with
    | error f => rfl
    | ok content => cases content <;> rfl

end Definitions

variable {P : Platform} {h : Hub} {e : EntryRef} {entry : Entry} {ctx : ObsContext}
  {dirs : Directories P} {name last path : CString} {names names' init : List CString} {size : Nat}

/-- The Data Hub makes no other directory. -/
theorem mem_withBackupDir {dir : CString} :
    dir ∈ dirs.withBackupDir.paths ↔ dir = backupDir P ∨ dir ∈ dirs.paths := by
  unfold Directories.withBackupDir
  split
  · next hthere =>
    refine ⟨.inr, ?_⟩
    rintro (rfl | hdir)
    · exact hthere
    · exact hdir
  · exact List.mem_cons

/-! ### Paths below the namespace of the Observations -/

theorem relPath_cons (name : CString) (names : List CString) :
    relPath (name :: names) = name ++ pathOf names := rfl

theorem relPath_concat (hne : init ≠ []) (last : CString) :
    relPath (init ++ [last]) = relPath init ++ 0x2f :: last := by
  cases init with
  | nil => exact absurd rfl hne
  | cons name names =>
    rw [List.cons_append, relPath_cons, relPath_cons, pathOf_append, List.append_assoc, pathOf_cons,
      pathOf_nil, List.append_nil]

theorem relPath_ne_nil (hlegal : ∀ n ∈ names, LegalName P n) (hne : names ≠ []) :
    relPath names ≠ [] := by
  cases names with
  | nil => exact absurd rfl hne
  | cons name names =>
    rw [relPath_cons]
    intro hnil
    exact (hlegal name List.mem_cons_self).1 (List.append_eq_nil_iff.mp hnil).1

theorem relPath_injective (hlegal : ∀ n ∈ names, LegalName P n)
    (hlegal' : ∀ n ∈ names', LegalName P n) (heq : relPath names = relPath names') :
    names = names' := by
  have hsplit : ∀ {names : List CString}, (∀ n ∈ names, LegalName P n) → names ≠ [] →
      splitPath (relPath names) = names := by
    intro names hlegal hne
    cases names with
    | nil => exact absurd rfl hne
    | cons name names =>
      exact splitPath_pathOf (hlegal name List.mem_cons_self).2.2.1
        fun n hn => (hlegal n (List.mem_cons_of_mem _ hn)).2.2.1
  by_cases hne : names = []
  · subst hne
    by_contra hne'
    exact relPath_ne_nil hlegal' (Ne.symm hne') heq.symm
  · by_cases hne' : names' = []
    · subst hne'
      exact absurd heq (relPath_ne_nil hlegal hne)
    · rw [← hsplit hlegal hne, heq, hsplit hlegal' hne']

theorem dot_notMem_relPath (hlegal : ∀ n ∈ names, LegalName P n) :
    (0x2e : UInt8) ∉ relPath names := by
  intro hmem
  obtain ⟨name, hname, hdot⟩ := List.mem_flatMap.mp (List.mem_of_mem_tail hmem)
  rcases List.mem_cons.mp hdot with hslash | hdot
  · revert hslash
    decide
  · have hlegalDot := (hlegal name hname).2.2.2 _ hdot
    revert hlegalDot
    decide

/-! ### Backup files -/

/-- The suffix is the first one in the name of the file. -/
theorem beforeSuffix_eq {text : CString} (hdot : (0x2e : UInt8) ∉ text) :
    beforeSuffix (text ++ backupSuffix) = some text := by
  induction text with
  | nil => rfl
  | cons c text ih =>
    obtain ⟨hc, hdot⟩ := not_or.mp (fun hmem => hdot (List.mem_cons.mpr hmem))
    have hnone : backupSuffix.isPrefixOf (c :: (text ++ backupSuffix)) = false := by
      show ((0x2e : UInt8) == c && _) = false
      rw [beq_false_of_ne hc, Bool.false_and]
    rw [List.cons_append, beforeSuffix, hnone, if_neg (by simp), ih hdot]
    rfl

theorem backupFile_injective (hlegal : ∀ n ∈ names, LegalName P n)
    (hlegal' : ∀ n ∈ names', LegalName P n) (heq : backupFile P names = backupFile P names') :
    names = names' := by
  unfold backupFile at heq
  rw [List.append_assoc, List.append_assoc] at heq
  exact relPath_injective hlegal hlegal'
    (List.append_cancel_right (List.append_cancel_left heq))

theorem backupDir_slash (P : Platform) : ∃ home, backupDir P = home ++ [0x2f] ∧ home ≠ [] := by
  unfold backupDir
  cases P.legatoEmbedded with
  | false => exact ⟨ascii "backup", by decide, by decide⟩
  | true => exact ⟨ascii "/home/root/dataHubBackup", by decide, by decide⟩

theorem dirOf_append (dir : CString) (hslash : 0x2f ∉ name) :
    dirOf (dir ++ [0x2f] ++ name) = dir ++ [0x2f] := by
  induction name using List.reverseRecOn with
  | nil =>
    rw [List.append_nil]
    exact List.rdropWhile_concat_neg _ _ _ (by simp)
  | append_singleton name c ih =>
    have hc : c ≠ 0x2f := by
      rintro rfl
      simp at hslash
    rw [dirOf, ← List.append_assoc, List.rdropWhile_concat_pos _ _ _ (by simpa using hc)]
    exact ih fun hmem => hslash (List.mem_append_left _ hmem)

theorem slash_notMem_file (hname : LegalName P name) : 0x2f ∉ name ++ backupSuffix := by
  intro hmem
  rcases List.mem_append.mp hmem with hmem | hmem
  · exact hname.2.2.1 hmem
  · revert hmem
    decide

/-- The file of an Observation directly below `/obs` is in the backup directory itself, those of
others are in directories below. -/
theorem dirOf_backupFile (hlegal : ∀ n ∈ names, LegalName P n) (hne : names ≠ []) :
    dirOf (backupFile P names) = backupDir P ↔ names.length = 1 := by
  obtain ⟨home, hhome, -⟩ := backupDir_slash P
  rcases List.eq_nil_or_concat names with rfl | ⟨init, last, rfl⟩
  · exact absurd rfl hne
  · rw [List.concat_eq_append] at hlegal ⊢
    have hlast := slash_notMem_file (hlegal last (by simp))
    by_cases hinit : init = []
    · subst hinit
      refine iff_of_true ?_ rfl
      have hfile : backupFile P ([] ++ [last]) = home ++ [0x2f] ++ (last ++ backupSuffix) := by
        unfold backupFile
        rw [hhome, List.nil_append, relPath_cons, pathOf_nil, List.append_nil, List.append_assoc]
      rw [hfile, dirOf_append _ hlast, hhome]
    · have hfile : backupFile P (init ++ [last]) =
          backupDir P ++ relPath init ++ [0x2f] ++ (last ++ backupSuffix) := by
        unfold backupFile
        rw [relPath_concat hinit]
        simp [List.append_assoc]
      rw [hfile, dirOf_append _ hlast]
      refine iff_of_false (fun heq => ?_) ?_
      · have hlen := congrArg List.length heq
        simp only [List.length_append, List.length_singleton] at hlen
        omega
      · have := List.length_pos_iff.mpr hinit
        rw [List.length_append, List.length_singleton]
        omega

theorem getBackupFilePath_eq (hctx : ctx.obsPath = some (relPath names))
    (hne : relPath names ≠ []) : getBackupFilePath P size ctx =
      if (backupFile P names).length < size then some (backupFile P names) else none := by
  unfold getBackupFilePath
  rw [hctx]
  cases hrel : relPath names with
  | nil => exact absurd hrel hne
  | cons c rest =>
    dsimp only
    rw [backupFile, hrel]

/-! ### The Observation of a file -/

/-- There is an Observation at this path, with backups enabled. -/
def BacksUp (h : Hub) (names : List CString) : Prop :=
  ∃ e entry r x o, h.directory.Leads rootPtr (ascii "obs" :: names) e ∧
    h.entries e = some entry ∧ entry.type = .observation ∧ entry.resourcePtr = some r ∧
    h.resources r = some x ∧ x.cls = .observation o ∧ o.backupPeriod ≠ 0

/-- The path of an Observation, as its functions look it up. -/
theorem obsPathOf_eq (ht : TreeOk P h) (hl : h.directory.Leads rootPtr (ascii "obs" :: names) e) :
    obsPathOf h e = some (relPath names) := by
  obtain ⟨ns, hns, hl⟩ := Directory.leads_cons.mp hl
  obtain ⟨found, hfind, hfound⟩ := findChild_spec ht.directory ht.exists_root (ascii "obs")
  have hpath : resTreeGetPath h ns e = .ok (some (relPath names)) := by
    cases names with
    | nil =>
      cases hl
      rw [resTreeGetPath, resTreeGetPath.go, if_pos rfl]
      rfl
    | cons name names =>
      have hroot : ns ≠ rootPtr := Nat.ne_of_gt (ht.lt_of_leads hns (by simp))
      rw [resTreeGetPath_eq ht hl (by simp), pathFrom, if_neg hroot]
      rfl
  rw [obsPathOf, obsPathOf.lookup, hfind, (hfound ns).mpr hns, ok_bind]
  dsimp only
  rw [hpath]

/-- The test of the walk for an entry that is there. -/
theorem isUsed_spec (hr : Reachable P h) (hl : h.directory.Leads rootPtr (ascii "obs" :: names) e) :
    ∃ used, deleteIfUnused.isUsed h (some e) = .ok used ∧ (used = true ↔ BacksUp h names) := by
  have ht := reachable_treeOk hr
  have hwf := reachable_wellFormed hr
  obtain ⟨entry, he⟩ := entry_of_node (hl.exists_node ht.exists_root)
  have hat : BacksUp h names → entry.type = .observation ∧ ∃ r x o, entry.resourcePtr = some r ∧
      h.resources r = some x ∧ x.cls = .observation o ∧ o.backupPeriod ≠ 0 := by
    rintro ⟨e', entry', r, x, o, hl', he', htype, hrest⟩
    cases ht.directory.leads_unique hl hl'
    cases he.symm.trans he'
    exact ⟨htype, r, x, o, hrest⟩
  rw [deleteIfUnused.isUsed, getEntry_ok.mpr he, ok_bind]
  by_cases htype : entry.type = .observation
  · obtain ⟨r, x, hattached, hx, o, ho⟩ := hwf.observation he htype
    have hptr : entry.resourcePtr = some r := by
      rw [DataHub.attachedTo, getEntry_ok.mpr he, ok_bind] at hattached
      split at hattached
      · next r' hptr =>
        cases hattached
        exact hptr
      · cases hattached
    rw [if_neg (not_not.mpr htype), hattached, ok_bind, getResource_ok.mpr hx, ok_bind, ho]
    refine ⟨_, rfl, ?_⟩
    rw [decide_eq_true_eq]
    refine ⟨fun hperiod => ⟨e, entry, r, x, o, hl, he, htype, hptr, hx, ho, hperiod⟩, fun hb => ?_⟩
    obtain ⟨-, r', x', o', hptr', hx', ho', hperiod⟩ := hat hb
    cases hptr.symm.trans hptr'
    cases hx.symm.trans hx'
    cases ho.symm.trans ho'
    exact hperiod
  · rw [if_pos htype]
    exact ⟨false, rfl, iff_of_false (by simp) fun hb => htype (hat hb).1⟩

/-- `BackupDirTreeWalkCallback` keeps just the files of Observations with backups. -/
theorem deleteIfUnused_eq (hr : Reachable P h) (hlegal : ∀ n ∈ names, LegalName P n)
    (hne : names ≠ []) (hlen : (backupFile P names).length < ioMaxResourcePathLen) :
    (BacksUp h names → deleteIfUnused P h (backupFile P names) = .ok h) ∧
    (¬ BacksUp h names → deleteIfUnused P h (backupFile P names) =
      .ok { h with files := h.files.filter fun f => f.1 ≠ backupFile P names }) := by
  have hs := reachable_searchable hr
  obtain ⟨home, hhome, hhomeNe⟩ := backupDir_slash P
  have hdrop : (backupFile P names).drop (backupDir P).length = relPath names ++ backupSuffix := by
    rw [backupFile, List.append_assoc, List.drop_left]
  have hshort : ¬ ioMaxResourcePathLen + 1 ≤ (relPath names).length + 6 := by
    have hhomeLen := List.length_pos_iff.mpr hhomeNe
    have hsuffix : backupSuffix.length = 4 := by decide
    unfold backupFile at hlen
    rw [hhome, List.length_append, List.length_append, List.length_append, List.length_singleton,
      hsuffix] at hlen
    omega
  unfold deleteIfUnused
  rw [hdrop, beforeSuffix_eq (dot_notMem_relPath hlegal)]
  dsimp only
  rw [if_neg hshort]
  obtain ⟨found, hfind, hfound⟩ :=
    findEntry_spec hs.directory hs.exists_root (ascii "/obs/" ++ relPath names)
  have helements : pathElements (ascii "/obs/" ++ relPath names) = ascii "obs" :: names := by
    cases names with
    | nil => exact absurd rfl hne
    | cons name names =>
      have hpath : ascii "/obs/" ++ relPath (name :: names) =
          pathOf (ascii "obs" :: name :: names) := rfl
      rw [hpath]
      refine pathElements_slash fun n hn => ?_
      rcases List.mem_cons.mp hn with rfl | hn
      · decide
      · exact (hlegal n hn).2.2.1
  rw [helements] at hfound
  rw [hfind, ok_bind]
  cases found with
  | none =>
    have hnot : ¬ BacksUp h names := by
      rintro ⟨e, entry, r, x, o, hl, -⟩
      cases (hfound e).mpr hl
    exact ⟨fun hb => absurd hb hnot, fun _ => rfl⟩
  | some e =>
    obtain ⟨used, hused, hiff⟩ := isUsed_spec hr ((hfound e).mp rfl)
    rw [hused, ok_bind]
    refine ⟨fun hb => ?_, fun hb => ?_⟩
    · rw [hiff.mpr hb]
      rfl
    · rw [Bool.eq_false_iff.mpr fun htrue => hb (hiff.mp htrue)]
      rfl

/-- An unlinked file is gone, and no other. -/
theorem deleteBackup_eq (hctx : ctx.obsPath = some (relPath names)) (hne : relPath names ≠ [])
    (hup : ctx.env.fileSystemUp = true) : deleteBackup P ctx =
      if (backupFile P names).length < ioMaxResourcePathLen then [.unlinked (backupFile P names)]
      else [] := by
  unfold deleteBackup
  rw [getBackupFilePath_eq hctx hne]
  split
  · next path hpath =>
    split at hpath
    · cases hpath
      next hlen => rw [if_pos hup, if_pos hlen]
    · cases hpath
  · next hpath =>
    split at hpath
    · cases hpath
    · next hlen => rw [if_neg hlen]

theorem files_readsEnded (files : List (CString × Bytes)) (ops : List ReadOperation) :
    (ops.map fun op => ObsEvent.readDone { op with nextEntryPtr := none } .commError).foldl
      Hub.applyFileEvent files = files := by
  induction ops with
  | nil => rfl
  | cons op ops ih => exact ih

/-- The destructor deletes the file if backups are enabled. -/
theorem destructObs_files {r : ResRef} {x : Resource} {o : Observation}
    (hpath : obsPathOf h x.entryRef = some (relPath names)) (hne : relPath names ≠ [])
    (hup : h.env.fileSystemUp = true) (hperiod : 0 < o.backupPeriod)
    (hlen : (backupFile P names).length < ioMaxResourcePathLen) :
    (destructObs P h r x o).files = h.files.filter fun f => f.1 ≠ backupFile P names := by
  have hctx : (obsContext h x).obsPath = some (relPath names) := hpath
  have hdelete := deleteBackup_eq (P := P) hctx hne hup
  rw [if_pos hlen] at hdelete
  have hfiles : (destructObs P h r x o).files =
      (h.emitObs r (.destructing o.backupTimer :: ([.unlinked (backupFile P names)] ++
        o.readOpList.map fun op =>
          ObsEvent.readDone { op with nextEntryPtr := none } .commError))).files := by
    unfold destructObs
    rw [if_pos hperiod, hdelete]
    split <;> rfl
  rw [hfiles, Hub.emitObs, List.foldl_cons, List.foldl_append, files_readsEnded]
  rfl

/-! ### One file for each Observation -/

/-- The backup file of the Observation at this path is found, differs from all others, can be
created, is cleaned up just if nothing needs it, and is deleted with the Observation and when
backups are disabled. -/
structure FileCorresponds (P : Platform) (dirs : Directories P) (names : List CString) : Prop where
  located : ∀ h e, Reachable P h → h.directory.Leads rootPtr (ascii "obs" :: names) e →
    obsPathOf h e = some (relPath names)
  named : ∀ ctx, ctx.obsPath = some (relPath names) →
    getBackupFilePath P (maxBackupFilePathBytes P) ctx = some (backupFile P names)
  distinct : ∀ names', (∀ n ∈ names', LegalName P n) → names' ≠ names →
    backupFile P names' ≠ backupFile P names
  created : createFile P dirs.withBackupDir (backupFile P names) = true
  cleaned : ∀ h, Reachable P h →
    (BacksUp h names → deleteIfUnused P h (backupFile P names) = .ok h) ∧
    (¬ BacksUp h names → deleteIfUnused P h (backupFile P names) =
      .ok { h with files := h.files.filter fun f => f.1 ≠ backupFile P names })
  deleted : ∀ ctx, ctx.obsPath = some (relPath names) → ctx.env.fileSystemUp = true →
    deleteBackup P ctx = [.unlinked (backupFile P names)]
  destructed : ∀ h r x o, obsPathOf h x.entryRef = some (relPath names) →
    h.env.fileSystemUp = true → 0 < o.backupPeriod → (destructObs P h r x o).files =
      h.files.filter fun f => f.1 ≠ backupFile P names

theorem created_iff (hlegal : ∀ n ∈ names, LegalName P n) (hne : names ≠ []) :
    createFile P dirs.withBackupDir (backupFile P names) = true ↔
      names.length = 1 ∨ dirOf (backupFile P names) ∈ dirs.paths := by
  rw [createFile, decide_eq_true_eq, mem_withBackupDir, dirOf_backupFile hlegal hne]

/-- A context in which backups work, for an Observation at some path. -/
def contextAt (obsPath : CString) : ObsContext :=
  ⟨{ now := .zero, relSec := 0, relUsec := 0, fileSystemUp := true }, some obsPath, .trigger⟩

/-- The file corresponds to its Observation just if that is directly below `/obs` or the directory
that it would need is already there, and its path fits the buffer of `DeleteBackup`. -/
theorem fileCorresponds_iff (dirs : Directories P) (hlegal : ∀ n ∈ names, LegalName P n)
    (hshort : (relPath names).length ≤ ioMaxResourcePathLen) :
    FileCorresponds P dirs names ↔ names ≠ [] ∧
      (names.length = 1 ∨ dirOf (backupFile P names) ∈ dirs.paths) ∧
      (backupFile P names).length < ioMaxResourcePathLen := by
  constructor
  · intro hfile
    have hne : names ≠ [] := by
      rintro rfl
      have hnamed := hfile.named (contextAt []) rfl
      cases hnamed
    have hdelete := hfile.deleted (contextAt (relPath names)) rfl rfl
    rw [deleteBackup_eq rfl (relPath_ne_nil hlegal hne) rfl] at hdelete
    refine ⟨hne, (created_iff hlegal hne).mp hfile.created, ?_⟩
    by_contra hlong
    rw [if_neg hlong] at hdelete
    cases hdelete
  · rintro ⟨hne, hdir, hlen⟩
    have hrel := relPath_ne_nil hlegal hne
    refine ⟨fun h e hr hl => obsPathOf_eq (reachable_treeOk hr) hl, fun ctx hctx => ?_,
      fun names' hlegal' hdiff heq => hdiff (backupFile_injective hlegal' hlegal heq),
      (created_iff hlegal hne).mpr hdir, fun h hr => deleteIfUnused_eq hr hlegal hne hlen,
      fun ctx hctx hup => ?_, fun h r x o hpath hup hperiod =>
        destructObs_files hpath hrel hup hperiod hlen⟩
    · rw [getBackupFilePath_eq hctx hrel, if_pos]
      rw [backupFile, List.length_append, List.length_append, maxBackupFilePathBytes]
      omega
    · rw [deleteBackup_eq hctx hrel hup, if_pos hlen]

instance : Decidable (LegalName P name) :=
  decidable_of_iff (name ≠ [] ∧ name.length < hubMaxEntryNameBytes P ∧ 0x2f ∉ name ∧
    name.all (fun c => !isIllegal c) = true) (by simp [LegalName])

/-- Only the directory that the hub runs in. -/
def emptyDirectories : Directories smallPlatform := ⟨[[]], by decide⟩

theorem fileCorresponds_oneName : FileCorresponds smallPlatform emptyDirectories [ascii "o"] :=
  (fileCorresponds_iff emptyDirectories (List.forall_mem_singleton.mpr (by decide))
    (by decide)).mpr ⟨by decide, .inl rfl, by decide⟩

/-- A file for a nested Observation would need a directory that nobody makes. -/
theorem fileCorresponds_fails : ¬ ∀ (dirs : Directories smallPlatform) names,
    (∀ n ∈ names, LegalName smallPlatform n) → (relPath names).length ≤ ioMaxResourcePathLen →
    FileCorresponds smallPlatform dirs names := by
  intro hall
  have hfile := hall emptyDirectories [ascii "a", ascii "b"]
    (List.forall_mem_cons.mpr ⟨by decide, List.forall_mem_singleton.mpr (by decide)⟩) (by decide)
  have hcreated := hfile.created
  revert hcreated
  decide

end MangOH.DataHub
