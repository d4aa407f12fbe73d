import MangOH.DataHub.GetterReads
import MangOH.DataHub.AbsolutePaths

/-! Paths of entries below any other entry, in buffers of any size, and the walk along the children
of an entry. -/
namespace MangOH.DataHub

open Outcome

section Definitions

variable (P : Platform)

/-- Texts copied one behind another into a buffer of `size` bytes, up to the first that does not
fit: what is in the buffer, and the length or `LE_OVERFLOW`. -/
def addTexts (size : Nat) : CString → List CString → CString × GetResult Nat
  | text, [] => (text, .ok text.length)
  | text, more :: rest =>
    let copied := appendText P size text more
    if copied.2 then addTexts size copied.1 rest else (copied.1, .error .overflow)

/-- `resTree_GetPath` into a buffer of `size` bytes. -/
def resTreeGetPathInto (h : Hub) (baseNamespace : EntryRef) (size : Nat) :
    Nat → EntryRef → Except Fault (CString × GetResult Nat)
  | 0, _ => .error .outOfFuel
  | fuel + 1, e =>
    if e = baseNamespace then
      if size = 0 then .error .fatal else pure ([], .ok 0)
    else do
      let entry ← h.getEntry e
      if entry.parentPtr = some baseNamespace then
        -- only a path from the root starts with a slash
        if baseNamespace = rootPtr then pure (addTexts P size [] [ascii "/", entry.name])
        else pure (addTexts P size [] [entry.name])
      else if e = rootPtr then pure ([], .error .notFound)
      else
        match entry.parentPtr with
        | none => .error .nullDeref
        | some parent => do
          let above ← resTreeGetPathInto h baseNamespace size fuel parent
          match above.2 with
          | .error _ => pure above
          | .ok _ => pure (addTexts P size above.1 [ascii "/", entry.name])

/-- The loop of the administrator's tool over the children of an entry, with the paths it visits. -/
def visitSiblings (h : Hub) (size : Nat) : Nat → GetResult CString → Except Fault (List CString)
  | 0, _ => .error .outOfFuel
  | _ + 1, .error .overflow => .error .fatal
  | _ + 1, .error _ => pure []
  | fuel + 1, .ok childPath => do
    let next ← adminGetNextSibling P h childPath size
    let rest ← visitSiblings h size fuel next
    pure (childPath :: rest)

def visitChildren (h : Hub) (size fuel : Nat) (path : CString) : Except Fault (List CString) := do
  let first ← adminGetFirstChild P h path size
  visitSiblings P h size fuel first

end Definitions

variable {P : Platform} {h : Hub} {e e' base c parent : EntryRef} {entry : Entry}
  {name text : CString} {names names' texts texts' : List CString} {size fuel : Nat}

/-! ### Filling a buffer -/

theorem addTexts_append (text : CString) (texts texts' : List CString) {copied : CString} {n : Nat}
    (hfit : addTexts P size text texts = (copied, .ok n)) :
    addTexts P size text (texts ++ texts') = addTexts P size copied texts' := by
  induction texts generalizing text with
  | nil =>
    cases hfit
    rfl
  | cons more rest ih =>
    rw [List.cons_append, addTexts]
    rw [addTexts] at hfit
    split at hfit
    · next hmore => rw [if_pos hmore, ih _ hfit]
    · cases hfit

theorem addTexts_append_error (text : CString) (texts texts' : List CString) {copied : CString}
    {err : GetError} (hfail : addTexts P size text texts = (copied, .error err)) :
    addTexts P size text (texts ++ texts') = (copied, .error err) := by
  induction texts generalizing text with
  | nil => cases hfail
  | cons more rest ih =>
    rw [List.cons_append, addTexts]
    rw [addTexts] at hfail
    split at hfail
    · next hmore => rw [if_pos hmore, ih _ hfail]
    · next hmore => rw [if_neg hmore, hfail]

/-- Texts that fit together are all copied. -/
theorem addTexts_fits (hfit : text.length + texts.flatten.length < size) :
    addTexts P size text texts = (text ++ texts.flatten, .ok (text ++ texts.flatten).length) := by
  induction texts generalizing text with
  | nil => simp [addTexts]
  | cons more rest ih =>
    rw [List.flatten_cons, List.length_append] at hfit
    rw [addTexts, appendText_fits (by omega)]
    dsimp only
    rw [if_pos rfl, ih (by rw [List.length_append]; omega), List.flatten_cons, List.append_assoc]

/-- Texts that do not fit together are not. -/
theorem addTexts_overflow (hne : texts ≠ [])
    (hlong : size ≤ text.length + texts.flatten.length) :
    (addTexts P size text texts).2 = .error .overflow := by
  induction texts generalizing text with
  | nil => exact absurd rfl hne
  | cons more rest ih =>
    rw [List.flatten_cons, List.length_append] at hlong
    by_cases hmore : more.length < size - text.length
    · rw [addTexts, appendText_fits hmore]
      dsimp only
      rw [if_pos rfl]
      refine ih ?_ (by rw [List.length_append]; omega)
      rintro rfl
      rw [List.flatten_nil, List.length_nil] at hlong
      omega
    · rw [addTexts, if_neg (by simpa [appendText] using hmore)]

/-! ### The texts of a path -/

/-- What is copied for the path along these names, with a slash in front. -/
def pathTexts (names : List CString) : List CString := names.flatMap fun name => [ascii "/", name]

theorem flatten_pathTexts (names : List CString) : (pathTexts names).flatten = pathOf names := by
  induction names with
  | nil => rfl
  | cons name names ih =>
    rw [pathOf_cons, ← ih]
    rfl

theorem pathTexts_append (names names' : List CString) :
    pathTexts (names ++ names') = pathTexts names ++ pathTexts names' := List.flatMap_append

/-- What is copied for a path that starts at `base`. -/
def textsFrom (base : EntryRef) (names : List CString) : List CString :=
  if base = rootPtr then pathTexts names else (pathTexts names).tail

/-- The path along these names from `base`. -/
def pathFrom (base : EntryRef) (names : List CString) : CString :=
  if base = rootPtr then pathOf names else (pathOf names).tail

theorem flatten_textsFrom (hne : names ≠ []) :
    (textsFrom base names).flatten = pathFrom base names := by
  unfold textsFrom pathFrom
  split
  · exact flatten_pathTexts names
  · cases names with
    | nil => exact absurd rfl hne
    | cons name names =>
      show name ++ (pathTexts names).flatten = name ++ pathOf names
      rw [flatten_pathTexts]

theorem textsFrom_ne_nil (hne : names ≠ []) : textsFrom base names ≠ [] := by
  cases names with
  | nil => exact absurd rfl hne
  | cons name names =>
    unfold textsFrom
    split <;> simp [pathTexts]

theorem textsFrom_concat (hne : names ≠ []) (name : CString) :
    textsFrom base (names ++ [name]) = textsFrom base names ++ [ascii "/", name] := by
  have htexts : pathTexts [name] = [ascii "/", name] := rfl
  unfold textsFrom
  rw [pathTexts_append, htexts]
  split
  · rfl
  · cases names with
    | nil => exact absurd rfl hne
    | cons first names => rfl

/-! ### Writing paths down -/

theorem TreeOk.lt_of_leads (ht : TreeOk P h) (hl : h.directory.Leads base names e)
    (hne : names ≠ []) : base < e := by
  induction hl with
  | here => exact absurd rfl hne
  | @child e c x n m name names he hc hm hname hl ih =>
    obtain ⟨m', hm', hparent, -⟩ := ht.directory.child e n c he hc
    obtain ⟨entry, hentry, rfl⟩ := Option.map_eq_some_iff.mp hm'
    have hlt := ht.parent_lt c entry e hentry hparent
    cases hl with
    | here => exact hlt
    | child he' hc' hm'' hname' hl' => exact Nat.lt_trans hlt (ih (by simp))

/-- The buffer gets the texts of the path. -/
theorem getPathInto_eq (ht : TreeOk P h) (hl : h.directory.Leads base names e) (hne : names ≠ [])
    (hfuel : e < fuel) :
    resTreeGetPathInto P h base size fuel e = .ok (addTexts P size [] (textsFrom base names)) := by
  induction fuel generalizing names e with
  | zero => exact absurd hfuel (Nat.not_lt_zero e)
  | succ fuel ih =>
    rcases List.eq_nil_or_concat names with rfl | ⟨init, last, rfl⟩
    · exact absurd rfl hne
    · rw [List.concat_eq_append] at hl ⊢
      have hbase := ht.lt_of_leads hl (by simp)
      obtain ⟨p, m, hp, hm, hparent, hname⟩ := ht.directory.leads_last hl
      obtain ⟨entry, hentry, rfl⟩ := Option.map_eq_some_iff.mp hm
      replace hparent : entry.parentPtr = some p := hparent
      have hlast : entry.name = last := hname
      have hlt := ht.parent_lt e entry p hentry hparent
      rw [resTreeGetPathInto, if_neg (Nat.ne_of_gt hbase), getEntry_ok.mpr hentry, ok_bind, hlast]
      by_cases hinit : init = []
      · subst hinit
        cases hp
        rw [if_pos hparent]
        unfold textsFrom
        split <;> rfl
      · have hpb := ht.lt_of_leads hp hinit
        have hpne : entry.parentPtr ≠ some base := by
          rw [hparent]
          intro heq
          exact Nat.ne_of_gt hpb (Option.some.inj heq)
        have hroot : e ≠ rootPtr := Nat.ne_of_gt (Nat.lt_of_le_of_lt (Nat.zero_le base) hbase)
        rw [if_neg hpne, if_neg hroot, hparent]
        dsimp only
        rw [ih hp hinit (Nat.lt_of_lt_of_le hlt (Nat.le_of_lt_succ hfuel)), ok_bind,
          textsFrom_concat hinit]
        rcases hadd : addTexts P size [] (textsFrom base init) with ⟨copied, result⟩
        cases result with
        | error err =>
          rw [addTexts_append_error _ _ _ hadd]
          rfl
        | ok n =>
          rw [addTexts_append _ _ _ hadd]
          rfl

/-- From the root, the getters' function does what this one does. -/
theorem getAbsolutePath_eq (ht : TreeOk P h) (hl : h.directory.Leads rootPtr names e)
    (hfuel : e < fuel) :
    getAbsolutePath P h size fuel e = .ok ((addTexts P size [] (pathTexts names)).1,
      (addTexts P size [] (pathTexts names)).2.toBool) := by
  induction fuel generalizing names e with
  | zero => exact absurd hfuel (Nat.not_lt_zero e)
  | succ fuel ih =>
    unfold getAbsolutePath
    rcases List.eq_nil_or_concat names with rfl | ⟨init, last, rfl⟩
    · cases hl
      rw [if_pos rfl]
      rfl
    · rw [List.concat_eq_append] at hl ⊢
      have hroot := ht.lt_of_leads hl (by simp)
      obtain ⟨p, m, hp, hm, hparent, hname⟩ := ht.directory.leads_last hl
      obtain ⟨entry, hentry, rfl⟩ := Option.map_eq_some_iff.mp hm
      replace hparent : entry.parentPtr = some p := hparent
      have hlast : entry.name = last := hname
      have hlt := ht.parent_lt e entry p hentry hparent
      rw [if_neg (Nat.ne_of_gt hroot), getEntry_ok.mpr hentry, ok_bind, hlast, hparent]
      dsimp only
      rw [ih hp (Nat.lt_of_lt_of_le hlt (Nat.le_of_lt_succ hfuel)), ok_bind, pathTexts_append]
      rcases hadd : addTexts P size [] (pathTexts init) with ⟨copied, result⟩
      cases result with
      | error err =>
        rw [addTexts_append_error _ _ _ hadd]
        rfl
      | ok n =>
        rw [addTexts_append _ _ _ hadd]
        show Except.ok _ = Except.ok ((addTexts P size copied [ascii "/", last]).1,
          (addTexts P size copied [ascii "/", last]).2.toBool)
        rw [addTexts, addTexts, addTexts]
        rcases appendText P size copied (ascii "/") with ⟨slash, fits⟩
        cases fits with
        | false => rfl
        | true =>
          rcases appendText P size slash last with ⟨whole, fits⟩
          cases fits <;> rfl

theorem pathFrom_concat (hne : names ≠ []) (name : CString) :
    pathFrom base (names ++ [name]) = pathFrom base names ++ ascii "/" ++ name := by
  rw [← flatten_textsFrom (by simp), textsFrom_concat hne, List.flatten_append,
    flatten_textsFrom hne, List.append_assoc]
  simp

/-- In a buffer without end, the path is that of the names. -/
theorem resTreeGetPath_eq (ht : TreeOk P h) (hl : h.directory.Leads base names e)
    (hne : names ≠ []) :
    resTreeGetPath h base e = .ok (some (pathFrom base names)) := by
  have hgo : ∀ fuel names e, h.directory.Leads base names e → names ≠ [] → e < fuel →
      resTreeGetPath.go h base fuel e = .ok (some (pathFrom base names)) := by
    intro fuel
    induction fuel with
    | zero => exact fun _ e _ _ hfuel => absurd hfuel (Nat.not_lt_zero e)
    | succ fuel ih =>
      intro names e hl hne hfuel
      rcases List.eq_nil_or_concat names with rfl | ⟨init, last, rfl⟩
      · exact absurd rfl hne
      · rw [List.concat_eq_append] at hl ⊢
        have hbase := ht.lt_of_leads hl (by simp)
        obtain ⟨p, m, hp, hm, hparent, hname⟩ := ht.directory.leads_last hl
        obtain ⟨entry, hentry, rfl⟩ := Option.map_eq_some_iff.mp hm
        replace hparent : entry.parentPtr = some p := hparent
        have hlast : entry.name = last := hname
        have hlt := ht.parent_lt e entry p hentry hparent
        rw [resTreeGetPath.go, if_neg (Nat.ne_of_gt hbase), getEntry_ok.mpr hentry, ok_bind, hlast,
          hparent]
        dsimp only
        by_cases hinit : init = []
        · subst hinit
          cases hp
          rw [if_pos rfl, pathFrom]
          refine congrArg (fun path => Except.ok (some path)) ?_
          split <;> simp
          rfl
        · rw [if_neg (Nat.ne_of_gt (ht.lt_of_leads hp hinit)),
            ih init p hp hinit (Nat.lt_of_lt_of_le hlt (Nat.le_of_lt_succ hfuel)), ok_bind,
            pathFrom_concat hinit]
          rfl
  exact hgo (e + 1) names e hl hne (Nat.lt_succ_self e)

/-! ### Round trips -/

theorem pathElements_slash (hslash : ∀ n ∈ name :: names, 0x2f ∉ n) :
    pathElements (pathOf (name :: names)) = name :: names := by
  rw [pathOf_cons, pathElements, if_pos rfl]
  exact splitPath_pathOf (hslash name List.mem_cons_self) fun n hn =>
    hslash n (List.mem_cons_of_mem _ hn)

/-- The path from an entry to one below it leads there. -/
theorem find_pathFrom (hs : Searchable P h) (hb : h.directory base ≠ none)
    (hl : h.directory.Leads base names e) (hne : names ≠ []) :
    resTreeFindEntry P h base (pathFrom base names) = .ok (some e) := by
  obtain ⟨found, hfind, hfound⟩ := findEntry_spec hs.directory hb (pathFrom base names)
  have hlegal := hs.directory.leads_legal hl
  have helements : pathElements (pathFrom base names) = names := by
    cases names with
    | nil => exact absurd rfl hne
    | cons name names =>
      unfold pathFrom
      split
      · exact pathElements_slash fun n hn => (hlegal n hn).2.2.1
      · exact pathElements_pathOf hlegal
  rw [helements] at hfound
  rw [hfind, (hfound e).mpr hl]

/-- Different entries below an entry have different paths from there. -/
theorem pathFrom_injective (hs : Searchable P h) (hb : h.directory base ≠ none)
    (hl : h.directory.Leads base names e) (hl' : h.directory.Leads base names' e')
    (hne : names ≠ []) (hne' : names' ≠ []) (heq : pathFrom base names = pathFrom base names') :
    e = e' := by
  have hfind := find_pathFrom hs hb hl hne
  rw [heq, find_pathFrom hs hb hl' hne'] at hfind
  cases hfind
  rfl

/-- The buffer gets the whole path, or the result is `LE_OVERFLOW`. -/
theorem getPathInto_result (size : Nat) (ht : TreeOk P h) (hl : h.directory.Leads base names e)
    (hne : names ≠ []) (hfuel : e < fuel) :
    ((pathFrom base names).length < size → resTreeGetPathInto P h base size fuel e =
      .ok (pathFrom base names, .ok (pathFrom base names).length)) ∧
    (size ≤ (pathFrom base names).length → ∃ text,
      resTreeGetPathInto P h base size fuel e = .ok (text, .error .overflow)) := by
  rw [getPathInto_eq ht hl hne hfuel, ← flatten_textsFrom hne]
  refine ⟨fun hfit => ?_, fun hlong => ?_⟩
  · rw [addTexts_fits (by rwa [List.length_nil, Nat.zero_add]), List.nil_append]
  · have hover : (addTexts P size [] (textsFrom base names)).2 = .error .overflow :=
      addTexts_overflow (textsFrom_ne_nil hne) (by rwa [List.length_nil, Nat.zero_add])
    exact ⟨_, congrArg Except.ok (Prod.ext rfl hover)⟩

/-- Whatever path is written down is the one along the names. -/
theorem eq_of_getPathInto {path : CString} {n : Nat} (ht : TreeOk P h)
    (hl : h.directory.Leads base names e) (hne : names ≠ []) (hfuel : e < fuel)
    (hpath : resTreeGetPathInto P h base size fuel e = .ok (path, .ok n)) :
    path = pathFrom base names ∧ (pathFrom base names).length < size := by
  obtain ⟨hfits, hover⟩ := getPathInto_result size ht hl hne hfuel
  by_cases hfit : (pathFrom base names).length < size
  · cases (hfits hfit).symm.trans hpath
    exact ⟨rfl, hfit⟩
  · obtain ⟨text, htext⟩ := hover (Nat.le_of_not_lt hfit)
    cases htext.symm.trans hpath

/-! ### Walking along the children -/

/-- The entries in a list of children that are given by their paths. -/
def PathsOf (P : Platform) (h : Hub) : List CString → List EntryRef → Prop :=
  List.Forall₂ fun path e => resTreeFindEntryAtAbsolutePath P h path = .ok (some e)

theorem pathOut_eq (ht : TreeOk P h) (hl : h.directory.Leads rootPtr names e)
    (hfit : (pathOf names).length < size) : pathOut P h size e = .ok (.ok (pathOf names)) := by
  rw [pathOut, getAbsolutePath_fits ht hl (Nat.lt_succ_self e) hfit]
  rfl

/-- The next child in the list. -/
theorem nextSibling_eq (he : h.entries e = some entry) {before after : List EntryRef}
    (hlist : entry.childList = before ++ c :: after) (hnot : c ∉ before) :
    nextSibling h c (some e) = .ok after.head? := by
  rw [nextSibling, getEntry_ok.mpr he, ok_bind, hlist]
  rw [List.dropWhile_append_of_pos fun b hb => by
    simpa using fun heq : b = c => hnot (heq ▸ hb)]
  simp [List.dropWhile]
  rfl

/-- The buffer is large enough for the path of each child. -/
def ChildrenFit (P : Platform) (h : Hub) (size : Nat) (entry : Entry) : Prop :=
  ∀ c ∈ entry.childList, ∃ text n,
    resTreeGetPathInto P h rootPtr size (c + 1) c = .ok (text, .ok n)

theorem child_leads (ht : TreeOk P h) (hl : h.directory.Leads rootPtr names e)
    (he : h.entries e = some entry) (hc : c ∈ entry.childList) :
    ∃ child, h.entries c = some child ∧ child.parentPtr = some e ∧
      ∃ name rest, h.directory.Leads rootPtr (name :: rest) c := by
  obtain ⟨m, hm, hparent, -⟩ := ht.directory.child e _ c (directory_of_entry he) hc
  obtain ⟨child, hchild, rfl⟩ := Option.map_eq_some_iff.mp hm
  refine ⟨child, hchild, hparent, ?_⟩
  have hlast : h.directory.Leads e [child.name] c :=
    .child (directory_of_entry he) hc hm rfl (.here c)
  have hleads := Directory.leads_append.mpr ⟨e, hl, hlast⟩
  cases names with
  | nil => exact ⟨_, _, hleads⟩
  | cons name names => exact ⟨name, names ++ [child.name], hleads⟩

/-- The first of these children is found at the path returned for it. -/
theorem pathOfEntry_head (ht : TreeOk P h) (hl : h.directory.Leads rootPtr names e)
    (he : h.entries e = some entry) (hfit : ChildrenFit P h size entry) (list : List EntryRef)
    (hsub : ∀ c ∈ list, c ∈ entry.childList) :
    pathOfEntry P h size list.head? = .ok (.error .notFound) ∧ list = [] ∨
    ∃ c rest path, list = c :: rest ∧ pathOfEntry P h size list.head? = .ok (.ok path) ∧
      resTreeFindEntryAtAbsolutePath P h path = .ok (some c) := by
  cases list with
  | nil => exact .inl ⟨rfl, rfl⟩
  | cons c rest =>
    have hc := hsub c List.mem_cons_self
    obtain ⟨child, hchild, hparent, name, names', hleads⟩ := child_leads ht hl he hc
    obtain ⟨text, n, htext⟩ := hfit c hc
    have hsize := (eq_of_getPathInto ht hleads (by simp) (Nat.lt_succ_self c) htext).2
    exact .inr ⟨c, rest, _, rfl, pathOut_eq ht hleads hsize, find_pathOf ht.toSearchable hleads⟩

/-- From some child on, the loop visits that child and those behind it. -/
theorem visitSiblings_spec (ht : TreeOk P h) (hl : h.directory.Leads rootPtr names e)
    (he : h.entries e = some entry) (hfit : ChildrenFit P h size entry)
    (before after : List EntryRef) (hlist : entry.childList = before ++ after)
    (hfuel : after.length < fuel) {result : GetResult CString}
    (hresult : pathOfEntry P h size after.head? = .ok result) :
    ∃ visited, visitSiblings P h size fuel result = .ok visited ∧ PathsOf P h visited after := by
  induction after generalizing before fuel result with
  | nil =>
    cases hresult
    obtain ⟨fuel, rfl⟩ := Nat.exists_eq_succ_of_ne_zero (Nat.ne_of_gt hfuel)
    exact ⟨[], rfl, .nil⟩
  | cons c after ih =>
    obtain ⟨fuel, rfl⟩ := Nat.exists_eq_succ_of_ne_zero (Nat.ne_of_gt (Nat.zero_lt_of_lt hfuel))
    have hsub : ∀ a ∈ c :: after, a ∈ entry.childList := by
      rw [hlist]
      exact fun a ha => List.mem_append_right _ ha
    obtain ⟨-, hnil⟩ | ⟨_, _, path, hcons, hpath, hfind⟩ :=
      pathOfEntry_head ht hl he hfit (c :: after) hsub
    · cases hnil
    · cases hcons
      cases hpath.symm.trans hresult
      obtain ⟨child, hchild, hparent, -⟩ := child_leads ht hl he (hsub c List.mem_cons_self)
      have hnodup : (before ++ c :: after).Nodup :=
        hlist ▸ ht.directory.nodup e _ (directory_of_entry he)
      have hnot : c ∉ before := fun hmem =>
        (List.nodup_append.mp hnodup).2.2 c hmem c List.mem_cons_self rfl
      have hnext : adminGetNextSibling P h path size = pathOfEntry P h size after.head? := by
        rw [adminGetNextSibling, hfind, ok_bind]
        dsimp only
        rw [getEntry_ok.mpr hchild, ok_bind, hparent, nextSibling_eq he hlist hnot, ok_bind]
      have hends : ∃ result, pathOfEntry P h size after.head? = .ok result := by
        obtain ⟨hnone, -⟩ | ⟨_, _, next, -, hsome, -⟩ :=
          pathOfEntry_head ht hl he hfit after fun a ha => hsub a (List.mem_cons_of_mem _ ha)
        · exact ⟨_, hnone⟩
        · exact ⟨_, hsome⟩
      obtain ⟨result, hresult⟩ := hends
      obtain ⟨visited, hvisited, hpaths⟩ := ih (before ++ [c])
        (by rw [hlist, List.append_assoc]; rfl) (Nat.lt_of_succ_lt_succ hfuel) hresult
      refine ⟨path :: visited, ?_, .cons hfind hpaths⟩
      rw [visitSiblings, hnext, hresult, ok_bind, hvisited]
      rfl

/-- A walk from any path of an entry visits its children, in their order. -/
theorem visitChildren_spec {path : CString} (ht : TreeOk P h)
    (hfind : resTreeFindEntryAtAbsolutePath P h path = .ok (some e))
    (he : h.entries e = some entry) (hfit : ChildrenFit P h size entry)
    (hfuel : entry.childList.length < fuel) :
    ∃ visited, visitChildren P h size fuel path = .ok visited ∧
      PathsOf P h visited entry.childList := by
  obtain ⟨names, hl⟩ := ht.rooted e (by rw [directory_of_entry he]; simp)
  have hends : ∃ result, pathOfEntry P h size entry.childList.head? = .ok result := by
    obtain ⟨hnone, -⟩ | ⟨_, _, next, -, hsome, -⟩ :=
      pathOfEntry_head ht hl he hfit entry.childList fun a ha => ha
    · exact ⟨_, hnone⟩
    · exact ⟨_, hsome⟩
  obtain ⟨result, hresult⟩ := hends
  obtain ⟨visited, hvisited, hpaths⟩ :=
    visitSiblings_spec ht hl he hfit [] entry.childList rfl hfuel hresult
  refine ⟨visited, ?_, hpaths⟩
  rw [visitChildren, adminGetFirstChild, atEntry, hfind, ok_bind]
  dsimp only
  rw [getEntry_ok.mpr he, ok_bind, hresult, ok_bind, hvisited]

/-! ### Every reachable tree -/

/-- An entry is strictly below another: following the parents from it leads there. -/
inductive StrictlyBelow (h : Hub) (base : EntryRef) : EntryRef → Prop
  | child {e : EntryRef} {entry : Entry} (he : h.entries e = some entry)
      (hparent : entry.parentPtr = some base) : StrictlyBelow h base e
  | deeper {e parent : EntryRef} {entry : Entry} (he : h.entries e = some entry)
      (hparent : entry.parentPtr = some parent) (hbelow : StrictlyBelow h base parent) :
      StrictlyBelow h base e

/-- The children of an entry are those that have it as their parent. -/
theorem mem_childList (ht : TreeOk P h) (he : h.entries e = some entry) :
    c ∈ entry.childList ↔ ∃ child, h.entries c = some child ∧ child.parentPtr = some e := by
  constructor
  · intro hc
    obtain ⟨m, hm, hparent, -⟩ := ht.directory.child e _ c (directory_of_entry he) hc
    obtain ⟨child, hchild, rfl⟩ := Option.map_eq_some_iff.mp hm
    exact ⟨child, hchild, hparent⟩
  · rintro ⟨child, hchild, hparent⟩
    obtain ⟨m, hm, hc⟩ :=
      ht.rooted.listed ht.directory ht.root (directory_of_entry hchild) hparent
    cases (directory_of_entry he).symm.trans hm
    exact hc

theorem leads_child (ht : TreeOk P h) (he : h.entries e = some entry)
    (hparent : entry.parentPtr = some parent) :
    h.directory parent ≠ none ∧ h.directory.Leads parent [entry.name] e := by
  obtain ⟨m, hm, hc⟩ := ht.rooted.listed ht.directory ht.root (directory_of_entry he) hparent
  refine ⟨by rw [hm]; simp, ?_⟩
  exact .child hm hc (directory_of_entry he) rfl (.here e)

theorem leads_of_below (ht : TreeOk P h) (hb : StrictlyBelow h base e) :
    h.directory base ≠ none ∧ ∃ names, names ≠ [] ∧ h.directory.Leads base names e := by
  induction hb with
  | child he hparent =>
    obtain ⟨hbase, hl⟩ := leads_child ht he hparent
    exact ⟨hbase, _, by simp, hl⟩
  | @deeper e parent entry he hparent _ ih =>
    obtain ⟨hbase, names, -, hl⟩ := ih
    obtain ⟨-, hl'⟩ := leads_child ht he hparent
    exact ⟨hbase, names ++ [entry.name], by simp, Directory.leads_append.mpr ⟨parent, hl, hl'⟩⟩

/-- `path` is what a buffer gets for this entry if it has room, and it leads back to the entry. -/
structure PathBetween (P : Platform) (h : Hub) (base e : EntryRef) (path : CString) : Prop where
  fits : ∀ size, path.length < size →
    resTreeGetPathInto P h base size (e + 1) e = .ok (path, .ok path.length)
  overflows : ∀ size, size ≤ path.length → ∃ text,
    resTreeGetPathInto P h base size (e + 1) e = .ok (text, .error .overflow)
  found : resTreeFindEntry P h base path = .ok (some e)
  foundFromRoot : base = rootPtr → resTreeFindEntryAtAbsolutePath P h path = .ok (some e)

theorem pathBetween_of_leads (ht : TreeOk P h) (hb : h.directory base ≠ none)
    (hl : h.directory.Leads base names e) (hne : names ≠ []) :
    PathBetween P h base e (pathFrom base names) where
  fits size hfit := (getPathInto_result size ht hl hne (Nat.lt_succ_self e)).1 hfit
  overflows size hlong := (getPathInto_result size ht hl hne (Nat.lt_succ_self e)).2 hlong
  found := find_pathFrom ht.toSearchable hb hl hne
  foundFromRoot := by
    rintro rfl
    cases names with
    | nil => exact absurd rfl hne
    | cons name names => exact find_pathOf ht.toSearchable hl

/-- In every reachable tree, paths lead back to the entries they are made for, different entries
have different paths, and a walk along returned paths visits each child once. -/
theorem paths_round_trip (hr : Reachable P h) :
    (∀ base e, StrictlyBelow h base e → ∃ path, PathBetween P h base e path) ∧
    (∀ base e e' size size' path n n', StrictlyBelow h base e → StrictlyBelow h base e' →
      resTreeGetPathInto P h base size (e + 1) e = .ok (path, .ok n) →
      resTreeGetPathInto P h base size' (e' + 1) e' = .ok (path, .ok n') → e = e') ∧
    ∀ path e entry size fuel, resTreeFindEntryAtAbsolutePath P h path = .ok (some e) →
      h.entries e = some entry → ChildrenFit P h size entry → entry.childList.length < fuel →
      entry.childList.Nodup ∧
      (∀ c, c ∈ entry.childList ↔ ∃ child, h.entries c = some child ∧ child.parentPtr = some e) ∧
      ∃ visited, visitChildren P h size fuel path = .ok visited ∧
        PathsOf P h visited entry.childList := by
  have ht := reachable_treeOk hr
  refine ⟨fun base e hb => ?_, fun base e e' size size' path n n' hb hb' hpath hpath' => ?_,
    fun path e entry size fuel hfind he hfit hfuel => ?_⟩
  · obtain ⟨hbase, names, hne, hl⟩ := leads_of_below ht hb
    exact ⟨_, pathBetween_of_leads ht hbase hl hne⟩
  · obtain ⟨hbase, names, hne, hl⟩ := leads_of_below ht hb
    obtain ⟨-, names', hne', hl'⟩ := leads_of_below ht hb'
    have heq := (eq_of_getPathInto ht hl hne (Nat.lt_succ_self e) hpath).1
    rw [(eq_of_getPathInto ht hl' hne' (Nat.lt_succ_self e') hpath').1] at heq
    exact (pathFrom_injective ht.toSearchable hbase hl' hl hne' hne heq).symm
  · exact ⟨ht.directory.nodup e _ (directory_of_entry he), fun c => mem_childList ht he,
      visitChildren_spec ht hfind he hfit hfuel⟩

/-- Two Observations in one namespace. -/
def twoChildrenRun : List Op := [.adminCreateObs (ascii "n/a"), .adminCreateObs (ascii "n/b")]

/-- The namespace is there with the two, and a buffer of nine bytes is enough for their paths. -/
def hasTwoChildren (h : Hub) : Bool :=
  (h.entries 2).any (fun entry => entry.childList = [3, 4]) &&
    (h.entries 3).any (fun entry => entry.parentPtr = some 2) &&
    passes (resTreeFindEntryAtAbsolutePath smallPlatform h (ascii "/obs/n")) (· = some 2) &&
    [3, 4].all fun c => passes (resTreeGetPathInto smallPlatform h rootPtr 9 (c + 1) c)
      (·.2.toBool)

theorem paths_round_trip_twoChildrenRun : ∃ h, Reachable smallPlatform h ∧
    (∃ path, PathBetween smallPlatform h 2 3 path) ∧
    ∃ visited, visitChildren smallPlatform h 9 3 (ascii "/obs/n") = .ok visited ∧
      PathsOf smallPlatform h visited [3, 4] := by
  have hrun : smallRunEnds twoChildrenRun hasTwoChildren = true := by decide +kernel
  obtain ⟨h, hr, htest⟩ := exists_of_smallRunEnds hrun
  simp only [hasTwoChildren, Bool.and_eq_true, Option.any_eq_true, decide_eq_true_eq,
    List.all_eq_true, passes_iff] at htest
  obtain ⟨⟨⟨⟨entry, he, hlist⟩, child, hchild, hparent⟩, found, hfind, rfl⟩, hfit⟩ := htest
  refine ⟨h, hr, (paths_round_trip hr).1 2 3 (.child hchild hparent), ?_⟩
  have hchildren : ChildrenFit smallPlatform h 9 entry := by
    intro c hc
    obtain ⟨result, hresult, hok⟩ := hfit c (hlist ▸ hc)
    obtain ⟨text, n | n⟩ := result
    · cases hok
    · exact ⟨text, n, hresult⟩
  obtain ⟨-, -, hvisited⟩ := (paths_round_trip hr).2.2 (ascii "/obs/n") 2
    entry 9 3 hfind he hchildren
    (by rw [hlist]; decide)
  rwa [hlist] at hvisited

end MangOH.DataHub
