import MangOH.DataHub.ReadOnly
import MangOH.DataHub.Scenario

/-! What is left in the tree when the functions that create entries return NULL. -/
namespace MangOH.DataHub

open Outcome

variable {P : Platform} {h h₁ h' : Hub} {base c e : EntryRef} {path : CString}
  {names : List CString} {fuel : Nat}

/-- The functions that create what is missing at a path. -/
inductive TreeGetter
  | getEntry
  | getResource
  | getInput (dataType : DataType) (units : CString)
  | getOutput (dataType : DataType) (units : CString)
  | getObservation

def TreeGetter.call (P : Platform) (fuel : Nat) (h : Hub) (base : EntryRef) (path : CString) :
    TreeGetter → Except Fault (Hub × Option EntryRef)
  | .getEntry => resTreeGetEntry P h base path
  | .getResource => resTreeGetResource P h base path
  | .getInput dataType units => resTreeGetInput P h base path dataType units
  | .getOutput dataType units => resTreeGetOutput P h base path dataType units
  | .getObservation => resTreeGetObservation P fuel h base path

/-- A call that returns NULL has changed no entry and no resource. -/
def LeavesNoTrace (h : Hub) (call : Except Fault (Hub × Option EntryRef)) : Prop :=
  ∀ h', call = .ok (h', none) → h'.entries = h.entries ∧ h'.resources = h.resources

/-- `GoToEntry` refuses no element of the path. -/
def Acceptable (P : Platform) (path : CString) : Prop :=
  path.any isIllegal = false ∧ ∀ name ∈ pathElements path, ¬ Malformed P name

/-- A namespace that has just been created. -/
def Hub.Fresh (h : Hub) (e : EntryRef) : Prop :=
  ∃ entry, h.entries e = some entry ∧ entry.type = .nameSpace ∧ entry.childList = []

theorem addChild_fresh (parent : EntryRef) (name : CString) (hp : (h.entries parent).isSome) :
    Sat (fun _ => True) (addChild P h parent name) fun p => p.2 = h.nextEntry ∧ p.1.Fresh p.2 ∧
      ∀ q, (h.entries q).isSome → (p.1.entries q).isSome := by
  obtain ⟨entry, hentry⟩ := Option.isSome_iff_exists.mp hp
  have hok : ∃ p, addChild P h parent name = .ok p := by
    unfold addChild Hub.modifyEntry
    rw [getEntry_ok.mpr hentry]
    exact ⟨_, rfl⟩
  obtain ⟨⟨h₁, c⟩, hadd⟩ := hok
  obtain ⟨_, _, hc, hh⟩ := (addChild_frame h parent name).result hadd
  rw [hadd]
  dsimp only at hc hh
  subst hc hh
  refine ⟨rfl, ⟨_, Function.update_self .., rfl, rfl⟩, fun q hq => ?_⟩
  by_cases hqc : q = h.nextEntry
  · subst hqc
    simp
  · by_cases hqp : q = parent
    · subst hqp
      simp [hqc]
    · simpa [hqc, hqp] using hq

/-- Below a new entry all entries are new. -/
theorem walk_fresh (names : List CString) (hc : h.Fresh c) :
    Sat (fun _ => True) (walk P true names h c) fun p =>
      (∀ x, p.2 = some x → p.1.Fresh x) ∧
        ∀ q, (h.entries q).isSome → (p.1.entries q).isSome := by
  induction names generalizing h c with
  | nil =>
    refine ⟨?_, fun q hq => hq⟩
    rintro x ⟨⟩
    exact hc
  | cons name names ih =>
    unfold walk
    split
    · exact ⟨by simp, fun q hq => hq⟩
    · obtain ⟨entry, hentry, htype, hchildren⟩ := hc
      have hfind : resTreeFindChild h c name = .ok none := by
        rw [resTreeFindChild, getEntry_ok.mpr hentry, ok_bind, hchildren]
        rfl
      rw [hfind, ok_bind]
      refine (addChild_fresh c name (by simp [hentry])).bind ?_
      rintro ⟨h₁, d⟩ ⟨-, hd, hkeep⟩
      exact (ih hd).mono fun p hp => ⟨hp.1, fun q hq => hp.2 q (hkeep q hq)⟩

/-- A walk passes only entries that are there, or creates some and ends at a new one. -/
theorem walk_creates (hd : h.directory.Ok (LegalName P)) (he : h.directory e ≠ none)
    (names : List CString) :
    Sat (fun _ => True) (walk P true names h e) fun p => p.1 = h ∨
      (p.1.entries h.nextEntry).isSome ∧ ∀ x, p.2 = some x → p.1.Fresh x := by
  induction names generalizing e with
  | nil => exact .inl rfl
  | cons name names ih =>
    unfold walk
    split
    · exact .inl rfl
    · obtain ⟨found, hfind, hfound⟩ := findChild_spec hd he name
      rw [hfind, ok_bind]
      cases found with
      | some c => exact ih (((hfound c).mp rfl).exists_node he)
      | none =>
        obtain ⟨entry, hentry⟩ := entry_of_node he
        refine (addChild_fresh e name (by simp [hentry])).bind ?_
        rintro ⟨h₁, c⟩ ⟨hnext, hc, -⟩
        dsimp only at hnext hc
        refine (walk_fresh names hc).mono fun p hp => .inr ⟨hp.2 _ ?_, hp.1⟩
        obtain ⟨new, hnew, -⟩ := hc
        rw [← hnext, hnew]
        rfl

theorem walk_none_iff (names : List CString) (h : Hub) (e : EntryRef) :
    Returns (walk P true names h e) fun p => p.2 = none ↔ ∃ name ∈ names, Malformed P name := by
  induction names generalizing h e with
  | nil => exact ⟨by simp, by simp⟩
  | cons name names ih =>
    unfold walk
    split
    · next hbad => exact ⟨fun _ => ⟨name, List.mem_cons_self, hbad⟩, fun _ => rfl⟩
    · next hgood =>
      have hiff : (∃ n ∈ name :: names, Malformed P n) ↔ ∃ n ∈ names, Malformed P n := by
        simp only [List.exists_mem_cons_iff, or_iff_right_iff_imp]
        exact fun hbad => absurd hbad hgood
      rw [hiff]
      refine Returns.skip fun found => ?_
      cases found with
      | some c => exact ih h c
      | none => exact Returns.skip fun p => ih p.1 p.2

/-- What `resTree_GetEntry` creates, and when it returns NULL. -/
theorem getEntry_creates (hd : h.directory.Ok (LegalName P)) (he : h.directory base ≠ none)
    (path : CString) : ∃ p, goToEntry P h base path true = .ok p ∧
      (p.1 = h ∨ (p.1.entries h.nextEntry).isSome ∧ ∀ x, p.2 = some x → p.1.Fresh x) ∧
      (p.2 = none ↔ ¬ Acceptable P path) := by
  unfold goToEntry
  split
  · next hillegal =>
    refine ⟨_, rfl, .inl rfl, iff_of_true rfl ?_⟩
    rintro ⟨hlegal, -⟩
    rw [hillegal] at hlegal
    cases hlegal
  · next hlegal =>
    obtain ⟨p, hwalk, hp⟩ := (walk_creates hd he (pathElements path)).exists_ok
    refine ⟨p, hwalk, hp, ((walk_none_iff _ h base).result hwalk).trans ?_⟩
    simp only [Acceptable, Bool.eq_false_iff.mpr hlegal, true_and, not_forall, not_not, exists_prop]

/-- A call that does not go far enough to create the element that is missing. -/
def Traceless (P : Platform) (h : Hub) (base : EntryRef) (path : CString) : Prop :=
  PathThere P h base path ∨ Acceptable P path

theorem TreeGetter.call_none {g : TreeGetter}
    (hgo : goToEntry P h base path true = .ok (h₁, none)) :
    g.call P fuel h base path = .ok (h₁, none) := by
  cases g with
  | getEntry => exact hgo
  | getResource =>
    simp only [TreeGetter.call, resTreeGetResource, hgo, ok_bind]
    rfl
  | getInput =>
    simp only [TreeGetter.call, resTreeGetInput, getIo, hgo, ok_bind]
    rfl
  | getOutput =>
    simp only [TreeGetter.call, resTreeGetOutput, getIo, hgo, ok_bind]
    rfl
  | getObservation =>
    simp only [TreeGetter.call, resTreeGetObservation, hgo, ok_bind]
    rfl

/-- NULL for an entry that is there tells of its type. -/
theorem getIo_conflict {create : EntryRef → Resource} {et : EntryType}
    (hgo : goToEntry P h base path true = .ok (h₁, some e))
    (hio : getIo P create et h base path = .ok (h', none)) : h' = h₁ ∧ ¬ h₁.Fresh e := by
  unfold getIo at hio
  rw [hgo, ok_bind] at hio
  obtain ⟨entry, hentry, hio⟩ := bind_eq_ok.mp hio
  have hold : h₁.Fresh e → entry.type = .nameSpace := by
    rintro ⟨entry', hentry', htype, -⟩
    cases (getEntry_ok.mp hentry).symm.trans hentry'
    exact htype
  cases htype : entry.type with
  | nameSpace | placeholder =>
    rw [htype] at hio
    obtain ⟨p, -, hio⟩ := bind_eq_ok.mp hio
    obtain ⟨h₂, -, hio⟩ := bind_eq_ok.mp hio
    cases hio
  | input | output | observation =>
    rw [htype] at hio
    cases hio
    exact ⟨rfl, fun hfresh => by cases htype.symm.trans (hold hfresh)⟩

theorem TreeGetter.conflict {g : TreeGetter}
    (hgo : goToEntry P h base path true = .ok (h₁, some e))
    (hcall : g.call P fuel h base path = .ok (h', none)) : h' = h₁ ∧ ¬ h₁.Fresh e := by
  cases g with
  | getEntry => cases hgo.symm.trans hcall
  | getResource =>
    simp only [TreeGetter.call, resTreeGetResource, hgo, ok_bind] at hcall
    obtain ⟨entry, -, hcall⟩ := bind_eq_ok.mp hcall
    split at hcall
    · obtain ⟨p, -, hcall⟩ := bind_eq_ok.mp hcall
      cases hcall
    · cases hcall
  | getInput => exact getIo_conflict hgo hcall
  | getOutput => exact getIo_conflict hgo hcall
  | getObservation =>
    simp only [TreeGetter.call, resTreeGetObservation, hgo, ok_bind] at hcall
    obtain ⟨entry, hentry, hcall⟩ := bind_eq_ok.mp hcall
    have hold : h₁.Fresh e → entry.type = .nameSpace := by
      rintro ⟨entry', hentry', htype, -⟩
      cases (getEntry_ok.mp hentry).symm.trans hentry'
      exact htype
    cases htype : entry.type with
    | nameSpace | placeholder =>
      rw [htype] at hcall
      obtain ⟨p, -, hcall⟩ := bind_eq_ok.mp hcall
      obtain ⟨h₂, -, hcall⟩ := bind_eq_ok.mp hcall
      obtain ⟨h₃, -, hcall⟩ := bind_eq_ok.mp hcall
      cases hcall
    | input | output =>
      rw [htype] at hcall
      cases hcall
      exact ⟨rfl, fun hfresh => by cases htype.symm.trans (hold hfresh)⟩
    | observation =>
      rw [htype] at hcall
      cases hcall

/-- In every state, a call that returns NULL leaves no trace if and only if it meets no malformed
element behind one that is missing. -/
theorem leavesNoTrace_iff (hr : Reachable P h) (hbase : h.entries base ≠ none) (path : CString)
    (fuel : Nat) (g : TreeGetter) :
    LeavesNoTrace h (g.call P fuel h base path) ↔ Traceless P h base path := by
  have hwf := reachable_wellFormed hr
  have hd := reachable_directory hr
  have he : h.directory base ≠ none := by simpa [Hub.directory] using hbase
  have hnew : h.entries h.nextEntry = none := by
    cases hn : h.entries h.nextEntry with
    | none => rfl
    | some entry => exact absurd (hwf.entry_lt _ _ hn) (Nat.lt_irrefl _)
  obtain ⟨⟨h₁, found⟩, hgo, hcreates, hnone⟩ := getEntry_creates hd he path
  dsimp only at hcreates hnone
  constructor
  · intro htrace
    by_contra hnot
    rw [Traceless, not_or] at hnot
    obtain ⟨hthere, hbad⟩ := hnot
    obtain rfl := hnone.mpr hbad
    have hsame := htrace h₁ (TreeGetter.call_none hgo)
    rcases hcreates with rfl | ⟨hmade, -⟩
    · exact hthere (pathThere_of_get hd he hgo rfl)
    · rw [hsame.1, hnew] at hmade
      cases hmade
  · intro htraceless h' hcall
    have hkeep : found = none → h₁ = h := by
      rintro rfl
      have hthere := htraceless.resolve_right (hnone.mp rfl)
      obtain ⟨found, hget, -⟩ := getEntry_there hwf hd he hthere
      cases hgo.symm.trans hget
      rfl
    cases found with
    | none =>
      cases (TreeGetter.call_none hgo).symm.trans hcall
      cases hkeep rfl
      exact ⟨rfl, rfl⟩
    | some e =>
      obtain ⟨rfl, hold⟩ := TreeGetter.conflict hgo hcall
      rcases hcreates with rfl | ⟨-, hfresh⟩
      · exact ⟨rfl, rfl⟩
      · exact absurd (hfresh e rfl) hold

/-- The call returns NULL, and the entry is there then. -/
def returnsNullWith (e : EntryRef) (call : Except Fault (Hub × Option EntryRef)) : Bool :=
  match call with
  | .ok (h, none) => (h.entries e).isSome
  | _ => false

theorem exists_of_returnsNullWith {x : Except Fault (Hub × Option EntryRef)}
    (hx : returnsNullWith e x = true) : ∃ h', x = .ok (h', none) ∧ h'.entries e ≠ none := by
  unfold returnsNullWith at hx
  split at hx
  · next h' => exact ⟨h', rfl, Option.isSome_iff_ne_none.mp hx⟩
  · cases hx

/-- `resTree_GetEntry` creates no entry at the path. -/
def createsNothing (path : CString) (h : Hub) : Bool :=
  match resTreeGetEntry smallPlatform h rootPtr path with
  | .ok (h', _) => h'.nextEntry == h.nextEntry
  | .error _ => false

theorem pathThere_of_createsNothing (hr : Reachable smallPlatform h)
    (hp : createsNothing path h = true) : PathThere smallPlatform h rootPtr path := by
  unfold createsNothing at hp
  split at hp
  · next hget =>
    have hroot : h.directory rootPtr ≠ none := (reachable_searchable hr).exists_root
    exact pathThere_of_get (reachable_directory hr) hroot hget (beq_iff_eq.mp hp)
  · cases hp

/-- An Input with a route from a Placeholder. -/
def routedInput : List Op :=
  [.ioCreateInput 0 (ascii "in") .numeric [], .adminSetSource (ascii "app/a/in") (ascii "b")]

theorem leavesNoTrace_routedInput : ∃ h, Reachable smallPlatform h ∧
    (∃ h', TreeGetter.getResource.call smallPlatform 0 h rootPtr (ascii "b/") = .ok (h', none) ∧
      h'.entries = h.entries ∧ h'.resources = h.resources) ∧
    ∃ h', TreeGetter.getObservation.call smallPlatform 0 h rootPtr (ascii "app/a/in")
      = .ok (h', none) ∧ h'.entries = h.entries ∧ h'.resources = h.resources := by
  have hrun : smallRunEnds routedInput (fun h => createsNothing (ascii "b/") h &&
      (h.entries rootPtr).isSome &&
      returnsNullWith rootPtr
        (TreeGetter.getResource.call smallPlatform 0 h rootPtr (ascii "b/")) &&
      returnsNullWith rootPtr
        (TreeGetter.getObservation.call smallPlatform 0 h rootPtr (ascii "app/a/in"))) = true := by
    decide +kernel
  obtain ⟨h, hr, hp⟩ := exists_of_smallRunEnds hrun
  simp only [Bool.and_eq_true] at hp
  obtain ⟨⟨⟨hthere, hroot⟩, hslash⟩, hconflict⟩ := hp
  obtain ⟨h₁, hslash, -⟩ := exists_of_returnsNullWith hslash
  obtain ⟨h₂, hconflict, -⟩ := exists_of_returnsNullWith hconflict
  have hbase := Option.isSome_iff_ne_none.mp hroot
  have hgood : Acceptable smallPlatform (ascii "app/a/in") := by
    unfold Acceptable Malformed
    decide
  exact ⟨h, hr,
    ⟨h₁, hslash, (leavesNoTrace_iff hr hbase _ _ _).mpr
      (.inl (pathThere_of_createsNothing hr hthere)) h₁ hslash⟩,
    ⟨h₂, hconflict, (leavesNoTrace_iff hr hbase _ _ _).mpr (.inr hgood) h₂ hconflict⟩⟩

/-- The hub at its start, when only the root is there. -/
def startHub : Hub := boot smallEnvironment []

/-- A trailing slash is found after the entry before it has been created. -/
theorem leavesNoTrace_fails : ¬ ∀ h base path fuel g, Reachable smallPlatform h →
    h.entries base ≠ none → LeavesNoTrace h (TreeGetter.call smallPlatform fuel h base path g) := by
  intro hall
  have htrace := hall startHub rootPtr (ascii "a/") 0 .getEntry (.boot _ _) (by decide)
  obtain ⟨h', hcall, hnew⟩ := exists_of_returnsNullWith (e := 1)
    (x := TreeGetter.getEntry.call smallPlatform 0 startHub rootPtr (ascii "a/"))
    (by decide +kernel)
  rw [(htrace h' hcall).1] at hnew
  exact hnew (by decide)

end MangOH.DataHub
