import MangOH.DataHub.Getters
import MangOH.DataHub.TreeRuns

/-! Getters read entries and resources that are there, at their own types. -/
namespace MangOH.DataHub

open Outcome

variable {P : Platform} {h : Hub} {e : EntryRef} {r : ResRef} {entry : Entry} {x : Resource}
  {s : DataSample} {t : DataType} {names : List CString} {path : CString} {α : Type}

theorem reachable_treeOk (hr : Reachable P h) : TreeOk P h := by
  have hif : ReachableIf P (fun _ _ => True) h := by
    induction hr with
    | boot env files => exact .boot env files
    | step fuel op _ hs ih => exact .step fuel op ih trivial hs
  exact (reachableIf_induction (Q := fun _ => True) (fun _ _ => trivial)
    (fun _ _ _ _ _ _ _ _ => trivial) hif).1

/-- The computation ends with a result. -/
def Ends (x : Except Fault α) : Prop := ∃ a, x = .ok a

theorem ends_pure (a : α) : Ends (pure a) := ⟨a, rfl⟩

theorem Ends.bind {β : Type} {x : Except Fault α} {f : α → Except Fault β} (hx : Ends x)
    (hf : ∀ a, x = .ok a → Ends (f a)) : Ends (x >>= f) := by
  obtain ⟨a, rfl⟩ := hx
  exact hf a rfl

theorem Ends.of_sat {Q : α → Prop} {x : Except Fault α} (h : Sat (fun _ => True) x Q) :
    Ends x := by
  obtain ⟨a, ha, -⟩ := h.exists_ok
  exact ⟨a, ha⟩

/-! ### Entries, resources and paths -/

theorem WellFormed.resource (hwf : WellFormed h) (he : h.entries e = some entry)
    (hr : entry.resourcePtr = some r) :
    ∃ x, h.resources r = some x ∧ ClassOk entry.type x.cls ∧ Typed x := by
  obtain ⟨x, hx, rfl⟩ := hwf.resourceOf e entry r he hr
  exact ⟨x, hx, hwf.cls r x entry hx he, hwf.typed r x entry hx he⟩

/-- The Observation at an entry. -/
theorem WellFormed.observation (hwf : WellFormed h) (he : h.entries e = some entry)
    (ht : entry.type = .observation) :
    ∃ r x, DataHub.attachedTo h e = .ok r ∧ h.resources r = some x ∧
      ∃ o, x.cls = .observation o := by
  obtain ⟨r, x, hr, hx, rfl⟩ := hwf.attachedTo he (by rw [ht]; rfl)
  refine ⟨r, x, ?_, hx, ?_⟩
  · rw [DataHub.attachedTo, getEntry_ok.mpr he, ok_bind, hr]
    rfl
  · have hcls := hwf.cls r x entry hx he
    rw [ht] at hcls
    cases hobs : x.cls with
    | observation o => exact ⟨o, rfl⟩
    | placeholder => simp [hobs, ClassOk] at hcls
    | ioPoint t isMandatory => simp [hobs, ClassOk] at hcls

theorem findAbsolute_spec (hs : Searchable P h) (path : CString) :
    ∃ found, resTreeFindEntryAtAbsolutePath P h path = .ok found
      ∧ ∀ e, found = some e → ∃ entry, h.entries e = some entry := by
  unfold resTreeFindEntryAtAbsolutePath
  split
  · next path =>
    obtain ⟨found, hfind, hfound⟩ := findEntry_spec hs.directory hs.exists_root path
    exact ⟨found, hfind, fun e he =>
      entry_of_node (((hfound e).mp he).exists_node hs.exists_root)⟩
  · exact ⟨none, rfl, by simp⟩

theorem getAbsolutePath_ends (ht : TreeOk P h) {size fuel : Nat}
    (hl : h.directory.Leads rootPtr names e) (hfuel : e < fuel) :
    Ends (getAbsolutePath P h size fuel e) := by
  induction fuel generalizing names e with
  | zero => exact absurd hfuel (Nat.not_lt_zero e)
  | succ fuel ih =>
    unfold getAbsolutePath
    by_cases he : e = rootPtr
    · rw [if_pos he]
      exact ends_pure _
    · rw [if_neg he]
      rcases List.eq_nil_or_concat names with rfl | ⟨init, last, rfl⟩
      · cases hl
        exact absurd rfl he
      · rw [List.concat_eq_append] at hl
        obtain ⟨p, m, hp, hm, hparent, -⟩ := ht.directory.leads_last hl
        obtain ⟨entry, hentry, rfl⟩ := Option.map_eq_some_iff.mp hm
        have hlt := ht.parent_lt e entry p hentry hparent
        rw [getEntry_ok.mpr hentry, ok_bind, show entry.parentPtr = some p from hparent]
        refine (ih hp (Nat.lt_of_lt_of_le hlt (Nat.le_of_lt_succ hfuel))).bind fun above _ => ?_
        split <;> exact ends_pure _

theorem pathOut_ends (ht : TreeOk P h) (size : Nat) (he : h.entries e = some entry) :
    Ends (pathOut P h size e) := by
  obtain ⟨names, hl⟩ := ht.rooted e (by simp [directory_of_entry he])
  exact (getAbsolutePath_ends ht hl (Nat.lt_succ_self e)).bind fun _ _ => ends_pure _

/-! ### Getters of the Admin service -/

theorem atEntry_ends (hs : Searchable P h) {none' : α} {read : Entry → Except Fault α}
    (hread : ∀ e entry, h.entries e = some entry → Ends (read entry)) (path : CString) :
    Ends (atEntry P h path none' read) := by
  obtain ⟨found, hfind, hfound⟩ := findAbsolute_spec hs path
  unfold atEntry
  rw [hfind, ok_bind]
  cases found with
  | none => exact ends_pure _
  | some e =>
    obtain ⟨entry, he⟩ := hfound e rfl
    dsimp only
    rw [getEntry_ok.mpr he, ok_bind]
    exact hread e entry he

theorem adminRead_ends (hwf : WellFormed h) (hs : Searchable P h) {none' : α}
    {read : Resource → Except Fault α}
    (hread : ∀ r x, h.resources r = some x → Typed x → Ends (read x)) (path : CString) :
    Ends (adminRead P h path none' read) := by
  refine atEntry_ends hs (fun e entry he => ?_) path
  cases hptr : entry.resourcePtr with
  | none => exact ends_pure _
  | some r =>
    obtain ⟨x, hx, -, htyped⟩ := hwf.resource he hptr
    dsimp only
    rw [getResource_ok.mpr hx, ok_bind]
    exact hread r x hx htyped

/-- The samples of an `AdminValue` are of the type recorded with them. -/
def AdminValue.TypedIn (v : AdminValue) (x : Resource) : Prop :=
  ∀ s, v.value x = some s → s.type = v.type x

theorem typedIn_ofDefault (hx : Typed x) : AdminValue.ofDefault.TypedIn x :=
  fun s hs => (hx.default s hs).1

theorem typedIn_ofOverride (hx : Typed x) : AdminValue.ofOverride.TypedIn x :=
  fun s hs => (hx.override s hs).1

theorem AdminValue.TypedIn.ofType {v : AdminValue} (hv : v.TypedIn x)
    (hs : v.ofType t x = some s) : s.type = t := by
  obtain ⟨hvalue, htype⟩ := Option.filter_eq_some_iff.mp hs
  rw [hv s hvalue]
  exact of_decide_eq_true htype

theorem jsonOut_ends (hs : s.type = t) (size : Nat) : Ends (jsonOut P s t size) :=
  (Ends.of_sat (sat_convertToJson hs size)).bind fun _ _ => ends_pure _

section Values

variable {v : AdminValue} (hwf : WellFormed h) (hs : Searchable P h)
  (hv : ∀ x, Typed x → v.TypedIn x)

include hwf hs

theorem adminHasValue_ends (path : CString) : Ends (adminHasValue P v h path) :=
  adminRead_ends hwf hs (fun _ _ _ _ => ends_pure _) path

theorem adminGetValueDataType_ends (path : CString) : Ends (adminGetValueDataType P v h path) :=
  adminRead_ends hwf hs (fun _ _ _ _ => ends_pure _) path

include hv

theorem adminGetBoolean_ends (path : CString) : Ends (adminGetBoolean P v h path) := by
  refine adminRead_ends hwf hs (fun r x _ hx => ?_) path
  split
  · exact ends_pure _
  · next s hs => exact .of_sat (sat_getBoolean ((hv x hx).ofType hs))

theorem adminGetNumeric_ends (path : CString) : Ends (adminGetNumeric P v h path) := by
  refine adminRead_ends hwf hs (fun r x _ hx => ?_) path
  split
  · exact ends_pure _
  · next s hs => exact .of_sat (sat_getNumeric ((hv x hx).ofType hs))

theorem adminGetString_ends (path : CString) (size : Nat) :
    Ends (adminGetString P v h path size) := by
  refine adminRead_ends hwf hs (fun r x _ hx => ?_) path
  split
  · exact ends_pure _
  · next s hs =>
    have htext := Ends.of_sat (sat_getText ((hv x hx).ofType hs) (.inl rfl))
    exact htext.bind fun _ _ => ends_pure _

theorem adminGetJson_ends (path : CString) (size : Nat) : Ends (adminGetJson P v h path size) := by
  refine adminRead_ends hwf hs (fun r x _ hx => ?_) path
  split
  · exact ends_pure _
  · next s hs => exact jsonOut_ends (hv x hx s hs) size

end Values

theorem adminGetFirstChild_ends (ht : TreeOk P h) (path : CString) (size : Nat) :
    Ends (adminGetFirstChild P h path size) := by
  refine atEntry_ends ht.toSearchable (fun e entry he => ?_) path
  cases hhead : entry.childList.head? with
  | none => exact ends_pure _
  | some c =>
    obtain ⟨m, hm, -⟩ := ht.directory.child e _ c (directory_of_entry he)
      (List.mem_of_mem_head? hhead)
    obtain ⟨child, hchild, -⟩ := Option.map_eq_some_iff.mp hm
    exact pathOut_ends ht size hchild

theorem adminGetNextSibling_ends (ht : TreeOk P h) (path : CString) (size : Nat) :
    Ends (adminGetNextSibling P h path size) := by
  obtain ⟨found, hfind, hfound⟩ := findAbsolute_spec ht.toSearchable path
  unfold adminGetNextSibling
  rw [hfind, ok_bind]
  cases found with
  | none => exact ends_pure _
  | some e =>
    obtain ⟨entry, he⟩ := hfound e rfl
    dsimp only
    rw [getEntry_ok.mpr he, ok_bind]
    cases hparent : entry.parentPtr with
    | none => exact ends_pure _
    | some parent =>
      obtain ⟨m, hm, -⟩ :=
        ht.rooted.listed ht.directory ht.root (directory_of_entry he) hparent
      obtain ⟨p, hp, rfl⟩ := Option.map_eq_some_iff.mp hm
      rw [nextSibling, getEntry_ok.mpr hp, ok_bind]
      cases hnext : (p.childList.dropWhile (· ≠ e)).tail.head? with
      | none => exact ends_pure _
      | some c =>
        have hmem : c ∈ p.childList := (List.dropWhile_sublist _).mem
          (List.mem_of_mem_tail (List.mem_of_mem_head? hnext))
        obtain ⟨m', hm', -⟩ := ht.directory.child parent _ c (directory_of_entry hp) hmem
        obtain ⟨sibling, hsibling, -⟩ := Option.map_eq_some_iff.mp hm'
        exact pathOut_ends ht size hsibling

theorem adminGetSource_ends (hwf : WellFormed h) (ht : TreeOk P h) (path : CString) (size : Nat) :
    Ends (adminGetSource P h path size) := by
  refine adminRead_ends hwf ht.toSearchable (fun r x hx _ => ?_) path
  cases hsrc : x.srcPtr with
  | none => exact ends_pure _
  | some src =>
    obtain ⟨source, hsource⟩ := (exists_of_route hwf ((src_of_resource hx).trans hsrc)).1
    obtain ⟨entry, he, -⟩ := hwf.entryOf src source hsource
    dsimp only
    rw [getResource_ok.mpr hsource, ok_bind]
    exact pathOut_ends ht size he

theorem adminIsMandatory_ends (hwf : WellFormed h) (hs : Searchable P h) (path : CString) :
    Ends (adminIsMandatory P h path) := by
  refine atEntry_ends hs (fun e entry he => ?_) path
  by_cases htype : entry.type = .output
  · rw [if_neg (not_not.mpr htype)]
    cases hptr : entry.resourcePtr with
    | none =>
      rw [(hwf.nameSpace e entry he).mpr hptr] at htype
      cases htype
    | some r =>
      obtain ⟨x, hx, hcls, -⟩ := hwf.resource he hptr
      dsimp only
      rw [getResource_ok.mpr hx, ok_bind]
      rw [htype] at hcls
      unfold ioPointIsMandatory
      cases hio : x.cls with
      | ioPoint t isMandatory => exact ends_pure _
      | placeholder => simp [hio, ClassOk] at hcls
      | observation o => simp [hio, ClassOk] at hcls
  · rw [if_pos htype]
    exact ends_pure _

end MangOH.DataHub
