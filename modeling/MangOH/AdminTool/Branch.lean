import MangOH.AdminTool.Printable
import MangOH.Lib.Forest

/-! What the tool prints of a branch of the resource tree. -/
namespace MangOH.AdminTool

open DataHub Outcome Transcript Forest

variable {C : Console} {P : Platform} {h : Hub} {e a b c p : EntryRef} {entry : Entry}
  {path : CString} {names : List CString} {before list : List EntryRef}
  {visits : List (EntryRef × Nat)} {d depth fuel k n : Nat}

def childrenOf (h : Hub) (e : EntryRef) : List EntryRef :=
  ((h.entries e).map (·.childList)).getD []

/-- The absolute path of an entry. -/
def pathTo (h : Hub) (e : EntryRef) : CString :=
  match resTreeGetPath h rootPtr e with
  | .ok (some path) => path
  | _ => []

/-- An entry is printed if its path fits the tool's buffer. -/
def printAt (C : Console) (path : CString) (depth : Nat) : Tool Unit :=
  if path.length ≤ ioMaxResourcePathLen then printEntry C path depth else throw .fatal

/-- One entry is printed behind the other. -/
def printListed (C : Console) (h : Hub) : List (EntryRef × Nat) → Tool Unit
  | [] => pure ()
  | (e, depth) :: rest => do
    printAt C (pathTo h e) depth
    printListed C h rest

/-- An entry below the first one is printed. -/
structure CanList (h : Hub) (e : EntryRef) : Prop where
  fits : (pathTo h e).length ≤ ioMaxResourcePathLen
  printable : ∀ entry, h.entries e = some entry → Printable h (pathTo h e) entry

/-! ### The tree -/

theorem childrenOf_eq (he : h.entries e = some entry) : childrenOf h e = entry.childList := by
  rw [childrenOf, he]
  rfl

theorem exists_of_child (hc : c ∈ childrenOf h e) : ∃ entry, h.entries e = some entry := by
  cases he : h.entries e with
  | some entry => exact ⟨entry, rfl⟩
  | none =>
    rw [childrenOf, he] at hc
    cases hc

theorem parent_of_child (ht : TreeOk P h) (hc : c ∈ childrenOf h e) :
    ∃ child, h.entries c = some child ∧ child.parentPtr = some e := by
  obtain ⟨entry, he⟩ := exists_of_child hc
  rw [childrenOf_eq he] at hc
  exact (mem_childList ht he).mp hc

theorem lt_child (ht : TreeOk P h) (hc : c ∈ childrenOf h e) : e < c := by
  obtain ⟨child, hchild, hparent⟩ := parent_of_child ht hc
  exact ht.parent_lt c child e hchild hparent

theorem exists_visits (ht : TreeOk P h) (list : List EntryRef) (d : Nat) :
    ∃ visits, Lists (childrenOf h) list d visits := by
  have hheight : ∀ a, ∀ b ∈ childrenOf h a, h.nextEntry - b < h.nextEntry - a := by
    intro a b hb
    obtain ⟨child, hchild, -⟩ := parent_of_child ht hb
    have hlt := lt_child ht hb
    have hend := ht.entry_lt b child hchild
    exact Nat.sub_lt_sub_left (Nat.lt_trans hlt hend) hlt
  exact exists_lists hheight list d

theorem lt_below (ht : TreeOk P h) (hc : Below (childrenOf h) e (n + 1) c) : e < c := by
  induction n generalizing e with
  | zero =>
    cases hc with
    | child hb hc =>
      cases hc
      exact lt_child ht hb
  | succ n ih =>
    cases hc with
    | child hb hc => exact Nat.lt_trans (lt_child ht hb) (ih hc)

theorem isForest_children (ht : TreeOk P h) : IsForest (childrenOf h) where
  parent a b c ha hb := by
    obtain ⟨child, hchild, hparent⟩ := parent_of_child ht ha
    obtain ⟨child', hchild', hparent'⟩ := parent_of_child ht hb
    cases hchild.symm.trans hchild'
    exact Option.some.inj (hparent.symm.trans hparent')
  nodup a := by
    cases ha : h.entries a with
    | none => simp [childrenOf, ha]
    | some entry =>
      rw [childrenOf_eq ha]
      exact ht.directory.nodup a _ (directory_of_entry ha)
  acyclic a n ha := Nat.lt_irrefl a (lt_below ht ha)

/-- So many levels below is so many names away. -/
theorem below_iff (ht : TreeOk P h) : Below (childrenOf h) e n c ↔
    ∃ names, h.directory.Leads e names c ∧ names.length = n := by
  constructor
  · intro hc
    induction hc with
    | here a => exact ⟨[], .here a, rfl⟩
    | @child a b c n hb _ ih =>
      obtain ⟨names, hl, rfl⟩ := ih
      obtain ⟨entry, he⟩ := exists_of_child hb
      obtain ⟨child, hchild, -⟩ := parent_of_child ht hb
      rw [childrenOf_eq he] at hb
      exact ⟨child.name :: names,
        .child (directory_of_entry he) hb (directory_of_entry hchild) rfl hl, rfl⟩
  · rintro ⟨names, hl, rfl⟩
    induction hl with
    | here a => exact .here a
    | @child e c x n m name names hn hc hm hname hl ih =>
      obtain ⟨entry, he, rfl⟩ := Option.map_eq_some_iff.mp hn
      refine .child (childrenOf_eq he ▸ hc) ih

theorem pathTo_eq (ht : TreeOk P h) (hl : h.directory.Leads rootPtr names e) (hne : names ≠ []) :
    pathTo h e = pathOf names := by
  rw [pathTo, resTreeGetPath_eq ht hl hne, pathFrom, if_pos rfl]

/-! ### The walk -/

theorem printListed_append (visits visits' : List (EntryRef × Nat)) :
    printListed C h (visits ++ visits') =
      printListed C h visits >>= fun _ => printListed C h visits' := by
  induction visits with
  | nil => rw [List.nil_append, printListed, pure_bind]
  | cons visit visits ih =>
    obtain ⟨e, depth⟩ := visit
    rw [List.cons_append, printListed, printListed, ih, bind_assoc]

/-- What the tool is told is the next entry to print. -/
theorem next_entry (ht : TreeOk P h) (hl : h.directory.Leads rootPtr names p)
    (he : h.entries p = some entry) (hc : c ∈ entry.childList) :
    pathOfEntry P h (ioMaxResourcePathLen + 1) (some c) =
      .ok (if (pathTo h c).length ≤ ioMaxResourcePathLen then .ok (pathTo h c)
        else .error .overflow) ∧
    resTreeFindEntryAtAbsolutePath P h (pathTo h c) = .ok (some c) := by
  obtain ⟨child, hchild, hparent, name, rest, hleads⟩ := child_leads ht hl he hc
  rw [pathTo_eq ht hleads (List.cons_ne_nil name rest)]
  refine ⟨?_, find_pathOf ht.toSearchable hleads⟩
  rw [pathOfEntry, pathOut_cases ht hleads (Nat.succ_pos _)]
  simp only [Nat.lt_succ_iff]

theorem exists_next (ht : TreeOk P h) (hl : h.directory.Leads rootPtr names p)
    (he : h.entries p = some entry) (hlist : entry.childList = before ++ list) :
    ∃ result, pathOfEntry P h (ioMaxResourcePathLen + 1) list.head? = .ok result := by
  cases list with
  | nil => exact ⟨_, rfl⟩
  | cons c rest => exact ⟨_, (next_entry ht hl he (by simp [hlist])).1⟩

/-- What the tool is told behind an entry. -/
theorem next_sibling (ht : TreeOk P h) (he : h.entries p = some entry)
    (hlist : entry.childList = before ++ a :: list) {child : Entry}
    (hfind : resTreeFindEntryAtAbsolutePath P h path = .ok (some a))
    (hchild : h.entries a = some child) (hparent : child.parentPtr = some p) (size : Nat) :
    adminGetNextSibling P h path size = pathOfEntry P h size list.head? := by
  have hnodup : (before ++ a :: list).Nodup :=
    hlist ▸ ht.directory.nodup p _ (directory_of_entry he)
  have hnot : a ∉ before := fun hmem =>
    (List.nodup_append.mp hnodup).2.2 a hmem a List.mem_cons_self rfl
  rw [adminGetNextSibling, hfind, ok_bind]
  dsimp only
  rw [getEntry_ok.mpr hchild, ok_bind, hparent, nextSibling_eq he hlist hnot, ok_bind]

theorem printChildren_agrees (hwf : WellFormed h) (ht : TreeOk C.P h)
    (hv : Lists (childrenOf h) list d visits) (hl : h.directory.Leads rootPtr names p)
    (he : h.entries p = some entry) (hlist : entry.childList = before ++ list)
    (hd : d = depth + 1) (hfuel : 2 * visits.length + 1 ≤ fuel) {result : GetResult CString}
    (hresult : pathOfEntry C.P h (ioMaxResourcePathLen + 1) list.head? = .ok result) :
    Agrees (printChildren C fuel result depth) (printListed C h visits) h := by
  induction hv generalizing p names entry before depth fuel result with
  | nil =>
    cases hresult
    obtain ⟨fuel, rfl⟩ := Nat.exists_eq_succ_of_ne_zero (by omega : fuel ≠ 0)
    exact ⟨[], .ok (), prints_pure (), prints_pure ()⟩
  | @cons a rest d below after hbelow hafter ihbelow ihafter =>
    subst hd
    rw [List.length_cons, List.length_append] at hfuel
    obtain ⟨fuel, rfl⟩ : ∃ n, fuel = n + 2 := ⟨fuel - 2, by omega⟩
    have ha : a ∈ entry.childList := by simp [hlist]
    obtain ⟨hpath, hfind⟩ := next_entry ht hl he ha
    cases hpath.symm.trans hresult
    rw [printListed]
    unfold printAt
    by_cases hfits : (pathTo h a).length ≤ ioMaxResourcePathLen
    · rw [if_pos hfits, if_pos hfits, printChildren, printBranch, printListed_append]
      simp only [bind_assoc]
      obtain ⟨child, hchild, hparent, name, rest', hleads⟩ := child_leads ht hl he ha
      have hchildren : child.childList = [] ++ childrenOf h a := (childrenOf_eq hchild).symm
      obtain ⟨first, hfirst⟩ := exists_next ht hleads hchild hchildren
      have hrest : entry.childList = (before ++ [a]) ++ rest := by
        rw [hlist, List.append_assoc]
        rfl
      obtain ⟨next, hnext⟩ := exists_next ht hl he hrest
      have hfirst' : adminGetFirstChild C.P h (pathTo h a) (ioMaxResourcePathLen + 1) =
          .ok first := by
        rw [adminGetFirstChild, atEntry_found hfind hchild, hchildren]
        exact hfirst
      have hnext' := (next_sibling ht he hlist hfind hchild hparent _).trans hnext
      refine (decides_printEntry hwf ht hfind hchild (depth + 1)).agrees.bind fun _ => ?_
      refine (prints_look hfirst').agrees (Agrees.bind ?_ fun _ => ?_)
      · exact ihbelow hleads hchild hchildren rfl (by omega) hfirst
      · exact (prints_look hnext').agrees (ihafter hl he hrest rfl (by omega) hnext)
    · rw [if_neg hfits, if_neg hfits]
      exact ⟨[], .error .fatal, prints_throw _, (prints_throw _).stop⟩

/-! ### The branch -/

theorem decides_printAt (hwf : WellFormed h) (ht : TreeOk C.P h)
    (hl : h.directory.Leads rootPtr names e) (hne : names ≠ []) (depth : Nat) :
    Decides (CanList h e) GivesUp (printAt C (pathTo h e) depth) h := by
  obtain ⟨entry, he⟩ := entry_of_node (hl.exists_node ht.exists_root)
  have hfind : resTreeFindEntryAtAbsolutePath C.P h (pathTo h e) = .ok (some e) := by
    rw [pathTo_eq ht hl hne]
    exact (pathBetween_of_leads ht ht.exists_root hl hne).foundFromRoot rfl
  unfold printAt
  split
  · next hfits =>
    refine (decides_printEntry hwf ht hfind he depth).congr ⟨fun hprint => ⟨hfits, ?_⟩, ?_⟩
    · intro entry' he'
      cases he.symm.trans he'
      exact hprint
    · exact fun hlist => hlist.printable entry he
  · next hlong => exact decides_throw (fun hlist => hlong hlist.fits) (.inr rfl)

theorem decides_printListed (hwf : WellFormed h) (ht : TreeOk C.P h)
    (hvisits : ∀ v ∈ visits, ∃ names, names ≠ [] ∧ h.directory.Leads rootPtr names v.1) :
    Decides (∀ v ∈ visits, CanList h v.1) GivesUp (printListed C h visits) h := by
  induction visits with
  | nil => exact (prints_pure ()).completes.congr (iff_of_true trivial (by simp))
  | cons v visits ih =>
    obtain ⟨names, hne, hl⟩ := hvisits v List.mem_cons_self
    refine ((decides_printAt hwf ht hl hne v.2).bind fun _ =>
      ih fun w hw => hvisits w (List.mem_cons_of_mem v hw)).congr ?_
    rw [List.forall_mem_cons]

/-- The tool prints these entries, each at its depth, behind the entry at the path. -/
structure ListsBranch (C : Console) (h : Hub) (e : EntryRef) (entry : Entry) (path : CString)
    (depth : Nat) (visits : List (EntryRef × Nat)) : Prop where
  preorder : Lists (childrenOf h) (childrenOf h e) (depth + 1) visits
  once : (visits.map Prod.fst).Nodup
  all : ∀ c d, (c, d) ∈ visits ↔
    ∃ names, names ≠ [] ∧ h.directory.Leads e names c ∧ d = depth + names.length
  paths : ∀ v ∈ visits, PathBetween C.P h rootPtr v.1 (pathTo h v.1)
  prints : ∀ fuel, 2 * visits.length + 2 ≤ fuel → Agrees (printBranch C fuel path depth) (do
    printEntry C path depth
    printListed C h visits) h
  completes : ∀ fuel, 2 * visits.length + 2 ≤ fuel →
    Decides (Printable h path entry ∧ ∀ v ∈ visits, CanList h v.1) GivesUp
      (printBranch C fuel path depth) h

/-- Whatever branch of a reachable tree is listed, each of its entries is printed once, behind its
parent and one level deeper, and the hub stays as it is. -/
theorem branch_listed (hr : Reachable C.P h)
    (hfind : resTreeFindEntryAtAbsolutePath C.P h path = .ok (some e))
    (he : h.entries e = some entry) (depth : Nat) :
    ∃ visits, ListsBranch C h e entry path depth visits := by
  have hwf := reachable_wellFormed hr
  have ht := reachable_treeOk hr
  have hforest := isForest_children ht
  obtain ⟨names₀, hl₀⟩ := ht.rooted e (by simp [directory_of_entry he])
  obtain ⟨visits, hv⟩ := exists_visits ht (childrenOf h e) (depth + 1)
  have hall : ∀ c d, (c, d) ∈ visits ↔
      ∃ names, names ≠ [] ∧ h.directory.Leads e names c ∧ d = depth + names.length := by
    intro c d
    rw [hv.mem_below_iff]
    constructor
    · rintro ⟨n, hn, rfl⟩
      obtain ⟨names, hl, hlen⟩ := (below_iff ht).mp hn
      exact ⟨names, List.ne_nil_of_length_eq_add_one hlen, hl, by rw [hlen]⟩
    · rintro ⟨names, hne, hl, rfl⟩
      cases names with
      | nil => exact absurd rfl hne
      | cons name names => exact ⟨names.length, (below_iff ht).mpr ⟨_, hl, rfl⟩, rfl⟩
  have hleads : ∀ v ∈ visits, ∃ names, names ≠ [] ∧ h.directory.Leads rootPtr names v.1 := by
    intro v hv
    obtain ⟨names, hne, hl, -⟩ := (hall v.1 v.2).mp hv
    exact ⟨names₀ ++ names, by simp [hne], Directory.leads_append.mpr ⟨e, hl₀, hl⟩⟩
  have hprints : ∀ fuel, 2 * visits.length + 2 ≤ fuel → Agrees (printBranch C fuel path depth)
      (printEntry C path depth >>= fun _ => printListed C h visits) h := by
    intro fuel hfuel
    obtain ⟨fuel, rfl⟩ : ∃ n, fuel = n + 1 := ⟨fuel - 1, by omega⟩
    have hchildren : entry.childList = [] ++ childrenOf h e := (childrenOf_eq he).symm
    obtain ⟨first, hfirst⟩ := exists_next ht hl₀ he hchildren
    have hfirst' : adminGetFirstChild C.P h path (ioMaxResourcePathLen + 1) = .ok first := by
      rw [adminGetFirstChild, atEntry_found hfind he, hchildren]
      exact hfirst
    rw [printBranch]
    refine (decides_printEntry hwf ht hfind he depth).agrees.bind fun _ => ?_
    exact (prints_look hfirst').agrees
      (printChildren_agrees hwf ht hv hl₀ he hchildren rfl (by omega) hfirst)
  have hlisted := (decides_printEntry hwf ht hfind he depth).bind fun _ =>
    decides_printListed hwf ht hleads
  exact ⟨visits, {
    preorder := hv
    once := hv.nodup hforest (hforest.nodup e) (children_apart hforest e)
    all := hall
    paths := by
      intro v hv
      obtain ⟨names, hne, hl⟩ := hleads v hv
      rw [pathTo_eq ht hl hne]
      have hpath := pathBetween_of_leads ht ht.exists_root hl hne
      rwa [pathFrom, if_pos rfl] at hpath
    prints := hprints
    completes := fun fuel hfuel => (hprints fuel hfuel).decides hlisted }⟩

/-- The names and numbers of the result codes. -/
def smallConsole : Console where
  P := smallPlatform
  hubFuel := 8
  session := 0
  resultTxt
    | .notFound => ascii "LE_NOT_FOUND"
    | .overflow => ascii "LE_OVERFLOW"
    | .unsupported => ascii "LE_UNSUPPORTED"
    | .unavailable => ascii "LE_UNAVAILABLE"
    | .formatError => ascii "LE_FORMAT_ERROR"
  resultCode
    | .notFound => ascii "-1"
    | .overflow => ascii "-9"
    | .unsupported => ascii "-18"
    | .unavailable => ascii "-21"
    | .formatError => ascii "-13"

/-- Two Observations in one namespace, one of them with the longest specification there can be. -/
def longExtractionRun : List Op :=
  [.adminCreateObs (ascii "n/a"),
   .adminSetJsonExtraction (ascii "n/b") (List.replicate adminMaxJsonExtractorLen 0x78)]

/-- An Observation in the entry numbered 2, without values and with a specification this long. -/
def hasExtraction (h : Hub) (e : EntryRef) (path : CString) (length : Nat) : Bool :=
  decide (pathTo h e = path) && (h.entries e).any fun entry =>
    decide (entry.parentPtr = some 2) && (entry.resourcePtr.bind h.resources).any fun x =>
      x.overrideValue.isNone && x.defaultValue.isNone && x.srcPtr.isNone &&
        match x.cls with
        | .observation o => decide (o.jsonExtraction.length = length)
        | _ => false

theorem listed_of_hasExtraction {length : Nat} (hunder : underObs path = true)
    (hfits : path.length ≤ ioMaxResourcePathLen) (htest : hasExtraction h e path length = true) :
    (CanList h e ↔ length < adminMaxJsonExtractorLen) ∧
    ∃ entry, h.entries e = some entry ∧ entry.parentPtr = some 2 := by
  simp only [hasExtraction, Bool.and_eq_true, decide_eq_true_eq, Option.any_eq_true,
    Option.isNone_iff_eq_none, Option.bind_eq_some_iff] at htest
  obtain ⟨hpath, entry, he, hparent, x, ⟨r, hr, hx⟩, ⟨⟨hover, hdef⟩, hsrc⟩, hobs⟩ := htest
  refine ⟨?_, entry, he, hparent⟩
  split at hobs
  · next o hcls =>
    have hlen := of_decide_eq_true hobs
    constructor
    · intro hlist
      have hfit := (hlist.printable entry he).extraction r x hr hx o hcls (hpath ▸ hunder)
      omega
    · intro hlt
      refine ⟨hpath ▸ hfits, fun entry' he' => ?_⟩
      cases he.symm.trans he'
      constructor <;> intro r' x' hr' hx' <;> cases hr.symm.trans hr' <;> cases hx.symm.trans hx'
      · exact fun hne => absurd hover hne
      · exact fun hne => absurd hdef hne
      · intro src y names hsome
        cases hsrc.symm.trans hsome
      · intro o' hcls' _
        cases hcls.symm.trans hcls'
        omega
  · cases hobs

theorem branch_listed_longExtractionRun : ∃ h entry visits, Reachable smallPlatform h ∧
    ListsBranch smallConsole h 2 entry (ascii "/obs/n") 0 visits ∧
    (3, 1) ∈ visits ∧ CanList h 3 ∧ (4, 1) ∈ visits ∧ ¬ CanList h 4 := by
  have hrun : smallRunEnds longExtractionRun (fun h =>
      (h.entries 2).isSome && hasExtraction h 3 (ascii "/obs/n/a") 0 &&
        hasExtraction h 4 (ascii "/obs/n/b") adminMaxJsonExtractorLen &&
        passes (resTreeFindEntryAtAbsolutePath smallPlatform h (ascii "/obs/n")) (· = some 2)) =
      true := by
    decide +kernel
  obtain ⟨h, hr, htest⟩ := exists_of_smallRunEnds hrun
  simp only [Bool.and_eq_true, passes_iff, decide_eq_true_eq] at htest
  obtain ⟨⟨⟨hsome, hfirst⟩, hsecond⟩, found, hfind, rfl⟩ := htest
  obtain ⟨entry, he⟩ := Option.isSome_iff_exists.mp hsome
  obtain ⟨hlist, first, hfirst, hparent⟩ :=
    listed_of_hasExtraction (by decide) (by decide) hfirst
  obtain ⟨hlist', second, hsecond, hparent'⟩ :=
    listed_of_hasExtraction (by decide) (by decide) hsecond
  have hr' : Reachable smallConsole.P h := hr
  obtain ⟨visits, hvisits⟩ := branch_listed hr' hfind he 0
  have ht := reachable_treeOk hr
  refine ⟨h, entry, visits, hr, hvisits, ?_, hlist.mpr (by decide), ?_, fun hlong => ?_⟩
  · exact (hvisits.all 3 1).mpr ⟨_, by simp, (leads_child ht hfirst hparent).2, rfl⟩
  · exact (hvisits.all 4 1).mpr ⟨_, by simp, (leads_child ht hsecond hparent').2, rfl⟩
  · exact Nat.lt_irrefl _ (hlist'.mp hlong)

end MangOH.AdminTool
