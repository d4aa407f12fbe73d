import MangOH.DataHub.TreeRuns

/-! The absolute paths of entries, as they are written and as they are looked up. -/
namespace MangOH.DataHub

open Outcome

variable {P : Platform} {h : Hub} {e e' : EntryRef} {entry : Entry} {name : CString}
  {names names' : List CString} {size fuel : Nat}

/-- The absolute path that leads along these names. -/
def pathOf (names : List CString) : CString := names.flatMap (0x2f :: ·)

@[simp] theorem pathOf_nil : pathOf [] = [] := rfl

@[simp] theorem pathOf_cons (name : CString) (names : List CString) :
    pathOf (name :: names) = 0x2f :: (name ++ pathOf names) := rfl

theorem pathOf_append (names names' : List CString) :
    pathOf (names ++ names') = pathOf names ++ pathOf names' := List.flatMap_append

/-! ### Looking a path up -/

theorem splitPath_pathOf (hname : 0x2f ∉ name) (hnames : ∀ name ∈ names, 0x2f ∉ name) :
    splitPath (name ++ pathOf names) = name :: names := by
  induction names generalizing name with
  | nil =>
    rw [pathOf_nil, List.append_nil]
    induction name with
    | nil => rfl
    | cons c name ih =>
      obtain ⟨hc, hname⟩ := not_or.mp (fun hmem => hname (List.mem_cons.mpr hmem))
      rw [splitPath, if_neg (Ne.symm hc), ih hname]
  | cons next names ih =>
    have hnext := ih (hnames next List.mem_cons_self)
      fun n hn => hnames n (List.mem_cons_of_mem _ hn)
    rw [pathOf_cons]
    induction name with
    | nil => rw [List.nil_append, splitPath, if_pos rfl, hnext]
    | cons c name ih =>
      obtain ⟨hc, hname⟩ := not_or.mp (fun hmem => hname (List.mem_cons.mpr hmem))
      rw [List.cons_append, splitPath, if_neg (Ne.symm hc), ih hname]

theorem pathElements_pathOf (hlegal : ∀ n ∈ name :: names, LegalName P n) :
    pathElements (name ++ pathOf names) = name :: names := by
  have hname := hlegal name List.mem_cons_self
  have hsplit := splitPath_pathOf hname.2.2.1 fun n hn =>
    (hlegal n (List.mem_cons_of_mem _ hn)).2.2.1
  cases name with
  | nil => exact absurd rfl hname.1
  | cons c name =>
    have hc : c ≠ 0x2f := fun hc => hname.2.2.1 (hc ▸ List.mem_cons_self)
    rw [List.cons_append] at hsplit ⊢
    rw [pathElements, if_neg hc, hsplit]

/-- The path of an entry below the root leads to it. -/
theorem find_pathOf (hs : Searchable P h)
    (hl : h.directory.Leads rootPtr (name :: names) e) :
    resTreeFindEntryAtAbsolutePath P h (pathOf (name :: names)) = .ok (some e) := by
  obtain ⟨found, hfind, hfound⟩ :=
    findEntry_spec hs.directory hs.exists_root (name ++ pathOf names)
  rw [pathElements_pathOf (hs.directory.leads_legal hl)] at hfound
  rw [pathOf_cons]
  show resTreeFindEntry P h rootPtr (name ++ pathOf names) = _
  rw [hfind, (hfound e).mpr hl]

/-- No two entries have one path. -/
theorem pathOf_injective (hs : Searchable P h) (hl : h.directory.Leads rootPtr names e)
    (hl' : h.directory.Leads rootPtr names' e') (heq : pathOf names = pathOf names') : e = e' := by
  cases names with
  | nil =>
    cases names' with
    | nil => exact hs.directory.leads_unique hl hl'
    | cons => cases heq
  | cons name names =>
    cases names' with
    | nil => cases heq
    | cons name' names' =>
      have hfind := find_pathOf hs hl
      rw [heq, find_pathOf hs hl'] at hfind
      cases hfind
      rfl

/-! ### Writing a path down -/

theorem appendText_fits {text more : CString} (hfit : more.length < size - text.length) :
    appendText P size text more = (text ++ more, true) := by
  simp [appendText, leUtf8Copy, hfit]

/-- A path that fits the buffer is written down as it is. -/
theorem getAbsolutePath_fits (ht : TreeOk P h) (hl : h.directory.Leads rootPtr names e)
    (hfuel : e < fuel) (hfit : (pathOf names).length < size) :
    getAbsolutePath P h size fuel e = .ok (pathOf names, true) := by
  induction fuel generalizing names e with
  | zero => exact absurd hfuel (Nat.not_lt_zero e)
  | succ fuel ih =>
    unfold getAbsolutePath
    by_cases he : e = rootPtr
    · subst he
      rw [ht.root.leads_nil ht.directory hl, if_pos rfl]
      rfl
    · rw [if_neg he]
      rcases List.eq_nil_or_concat names with rfl | ⟨init, last, rfl⟩
      · cases hl
        exact absurd rfl he
      · rw [List.concat_eq_append] at hl hfit ⊢
        obtain ⟨p, m, hp, hm, hparent, hname⟩ := ht.directory.leads_last hl
        obtain ⟨entry, hentry, rfl⟩ := Option.map_eq_some_iff.mp hm
        have hlt := ht.parent_lt e entry p hentry hparent
        have hlen : (pathOf (init ++ [last])).length = (pathOf init).length + 1 + last.length := by
          simp [pathOf_append]
          omega
        rw [getEntry_ok.mpr hentry, ok_bind]
        rw [show entry.parentPtr = some p from hparent, show entry.name = last from hname]
        dsimp only
        rw [ih hp (Nat.lt_of_lt_of_le hlt (Nat.le_of_lt_succ hfuel)) (by omega), ok_bind]
        have hslash : appendText P size (pathOf init) (ascii "/") =
            (pathOf init ++ ascii "/", true) := by
          refine appendText_fits ?_
          show 1 < _
          omega
        have hlast : appendText P size (pathOf init ++ ascii "/") last =
            (pathOf init ++ ascii "/" ++ last, true) := by
          refine appendText_fits ?_
          rw [List.length_append]
          show _ < _ - (_ + 1)
          omega
        rw [if_neg (by simp), hslash]
        dsimp only
        rw [if_pos rfl, hlast]
        refine congrArg (fun path => Except.ok (path, true)) ?_
        rw [pathOf_append, pathOf_cons, pathOf_nil, List.append_nil, List.append_assoc]
        rfl

theorem noticePath_fits {path : CString} (ht : TreeOk P h)
    (hl : h.directory.Leads rootPtr names e)
    (hfit : (pathOf names).length ≤ ioMaxResourcePathLen) (hp : NoticePath P h e path) :
    path = pathOf names := by
  obtain ⟨fits, hp⟩ := hp
  rw [getAbsolutePath_fits ht hl (Nat.lt_succ_self e) (Nat.lt_succ_of_le hfit)] at hp
  cases hp
  rfl

end MangOH.DataHub
