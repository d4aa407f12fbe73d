import Mathlib.Data.List.Induction
import Mathlib.Data.List.Nodup
import Mathlib.Logic.Function.Basic
import Mathlib.Logic.Relation

/-! Trees of named nodes that are kept twice: as a pointer in each node and as a list in each
parent. -/
namespace MangOH

/-- A node: its parent, its name there and its children. -/
structure DirNode (α β : Type*) where
  parent : Option α
  name : β
  children : List α

abbrev Directory (α β : Type*) := α → Option (DirNode α β)

namespace Directory

variable {α β : Type*} {legal : β → Prop} {d d' : Directory α β} {c e parent : α} {name : β}
  {n p : DirNode α β}

/-- The children of each node are nodes below it under different legal names. -/
structure Ok (legal : β → Prop) (d : Directory α β) : Prop where
  child : ∀ e n c, d e = some n → c ∈ n.children →
    ∃ m, d c = some m ∧ m.parent = some e ∧ legal m.name
  nodup : ∀ e n, d e = some n → n.children.Nodup
  distinct : ∀ e n c c' m m', d e = some n → c ∈ n.children → c' ∈ n.children → d c = some m →
    d c' = some m' → m.name = m'.name → c = c'

/-- Some nodes have gone, and with them their places in the lists. -/
structure Pruned (d d' : Directory α β) : Prop where
  from_node : ∀ e n', d' e = some n' → ∃ n, d e = some n ∧ n'.parent = n.parent ∧ n'.name = n.name ∧
    n'.children.Sublist n.children
  child : ∀ e n' c, d' e = some n' → c ∈ n'.children → (d' c).isSome

theorem Ok.pruned (h : d.Ok legal) (hp : Pruned d d') : d'.Ok legal := by
  refine ⟨?_, ?_, ?_⟩
  · intro e n' c he hc
    obtain ⟨n, hn, _, _, hsub⟩ := hp.from_node e n' he
    obtain ⟨m', hm'⟩ := Option.isSome_iff_exists.mp (hp.child e n' c he hc)
    obtain ⟨m, hm, hparent, hname, _⟩ := hp.from_node c m' hm'
    obtain ⟨m₀, hm₀, hparent₀, hlegal⟩ := h.child e n c hn (hsub.subset hc)
    cases hm.symm.trans hm₀
    exact ⟨m', hm', hparent.trans hparent₀, hname ▸ hlegal⟩
  · intro e n' he
    obtain ⟨n, hn, _, _, hsub⟩ := hp.from_node e n' he
    exact (h.nodup e n hn).sublist hsub
  · intro e n' c c' m m' he hc hc' hm hm' heq
    obtain ⟨n, hn, _, _, hsub⟩ := hp.from_node e n' he
    obtain ⟨m₀, hm₀, _, hname₀, _⟩ := hp.from_node c m hm
    obtain ⟨m₁, hm₁, _, hname₁, _⟩ := hp.from_node c' m' hm'
    refine h.distinct e n c c' m₀ m₁ hn (hsub.subset hc) (hsub.subset hc') hm₀ hm₁ ?_
    rw [← hname₀, ← hname₁, heq]

section Changes

variable [DecidableEq α]

/-- A new node, at the end of its parent's list. -/
def add (d : Directory α β) (parent c : α) (p : DirNode α β) (name : β) : Directory α β :=
  Function.update
    (Function.update d parent (some { p with children := p.children ++ [c] }))
    c (some ⟨some parent, name, []⟩)

/-- A node is taken off its parent's list, and is gone. -/
def remove (d : Directory α β) (parent e : α) (p : DirNode α β) : Directory α β :=
  Function.update
    (Function.update d parent (some { p with children := p.children.erase e })) e none

theorem add_cases (hp : d parent = some p) (hc : d c = none) {q : α} {n' : DirNode α β}
    (hq : d.add parent c p name q = some n') :
    (q = c ∧ n' = ⟨some parent, name, []⟩) ∨ q ≠ c ∧ ∃ n, d q = some n ∧
      n'.parent = n.parent ∧ n'.name = n.name ∧
      ((q = parent ∧ n'.children = n.children ++ [c]) ∨ n'.children = n.children) := by
  unfold add at hq
  by_cases hqc : q = c
  · subst hqc
    rw [Function.update_self] at hq
    exact .inl ⟨rfl, (Option.some.inj hq).symm⟩
  · rw [Function.update_of_ne hqc] at hq
    refine .inr ⟨hqc, ?_⟩
    by_cases hqp : q = parent
    · subst hqp
      rw [Function.update_self] at hq
      cases hq
      exact ⟨p, hp, rfl, rfl, .inl ⟨rfl, rfl⟩⟩
    · rw [Function.update_of_ne hqp] at hq
      exact ⟨n', hq, rfl, rfl, .inr rfl⟩

theorem add_of_some (name : β) (hp : d parent = some p) (hc : d c = none)
    {q : α} (hq : d q = some n) :
    ∃ n', d.add parent c p name q = some n' ∧ n'.parent = n.parent ∧ n'.name = n.name := by
  have hqc : q ≠ c := by
    rintro rfl
    rw [hc] at hq
    cases hq
  unfold add
  rw [Function.update_of_ne hqc]
  by_cases hqp : q = parent
  · subst hqp
    cases hp.symm.trans hq
    exact ⟨_, Function.update_self .., rfl, rfl⟩
  · exact ⟨n, by rw [Function.update_of_ne hqp, hq], rfl, rfl⟩

theorem Ok.add (h : d.Ok legal) (hp : d parent = some p) (hc : d c = none) (hname : legal name)
    (hnew : ∀ q m, q ∈ p.children → d q = some m → m.name ≠ name) :
    (d.add parent c p name).Ok legal := by
  have hnotMem : ∀ q n, d q = some n → c ∉ n.children := by
    intro q n hq hmem
    obtain ⟨m, hm, _⟩ := h.child q n c hq hmem
    rw [hc] at hm
    cases hm
  have hself : d.add parent c p name c = some ⟨some parent, name, []⟩ := Function.update_self ..
  have hchild : ∀ {q n' b}, d.add parent c p name q = some n' → b ∈ n'.children →
      (q = parent ∧ b = c) ∨ b ≠ c ∧ ∃ n, d q = some n ∧ b ∈ n.children := by
    intro q n' b hq hb
    rcases add_cases hp hc hq with ⟨_, rfl⟩ | ⟨_, n, hn, _, _, ⟨rfl, hl⟩ | hl⟩
    · cases hb
    · rw [hl] at hb
      rcases List.mem_append.mp hb with hb | hb
      · exact .inr ⟨fun heq => hnotMem q n hn (heq ▸ hb), n, hn, hb⟩
      · exact .inl ⟨rfl, List.mem_singleton.mp hb⟩
    · rw [hl] at hb
      exact .inr ⟨fun heq => hnotMem q n hn (heq ▸ hb), n, hn, hb⟩
  have hold : ∀ {b m'}, b ≠ c → d.add parent c p name b = some m' →
      ∃ m, d b = some m ∧ m'.name = m.name := by
    intro b m' hb hm'
    rcases add_cases hp hc hm' with ⟨rfl, _⟩ | ⟨_, m, hm, _, hname, _⟩
    · exact absurd rfl hb
    · exact ⟨m, hm, hname⟩
  refine ⟨?_, ?_, ?_⟩
  · intro q n' b hq hb
    rcases hchild hq hb with ⟨rfl, rfl⟩ | ⟨_, n, hn, hmem⟩
    · exact ⟨_, hself, rfl, hname⟩
    · obtain ⟨m, hm, hparent, hlegal⟩ := h.child q n b hn hmem
      obtain ⟨m', hm', hparent', hname'⟩ := add_of_some name hp hc hm
      exact ⟨m', hm', hparent'.trans hparent, hname' ▸ hlegal⟩
  · intro q n' hq
    rcases add_cases hp hc hq with ⟨_, rfl⟩ | ⟨_, n, hn, _, _, ⟨_, hl⟩ | hl⟩
    · exact List.nodup_nil
    · rw [hl, List.nodup_append]
      refine ⟨h.nodup q n hn, List.nodup_singleton _, ?_⟩
      rintro a ha b hb rfl
      exact hnotMem q n hn (List.mem_singleton.mp hb ▸ ha)
    · rw [hl]
      exact h.nodup q n hn
  · intro q n' b b' m m' hq hb hb' hm hm' heq
    have hclash : ∀ {b m}, b ≠ c → d.add parent c p name b = some m →
        (∃ n, d parent = some n ∧ b ∈ n.children) → m.name ≠ name := by
      rintro b m hbc hm ⟨n, hn, hmem⟩
      cases hp.symm.trans hn
      obtain ⟨m₀, hm₀, hname₀⟩ := hold hbc hm
      exact hname₀ ▸ hnew b m₀ hmem hm₀
    rcases hchild hq hb with ⟨rfl, rfl⟩ | ⟨hbc, n, hn, hmem⟩
    · rcases hchild hq hb' with ⟨_, rfl⟩ | ⟨hbc', n', hn', hmem'⟩
      · rfl
      · cases hself.symm.trans hm
        exact absurd heq.symm (hclash hbc' hm' ⟨n', hn', hmem'⟩)
    · rcases hchild hq hb' with ⟨rfl, rfl⟩ | ⟨hbc', n', hn', hmem'⟩
      · cases hself.symm.trans hm'
        exact absurd heq (hclash hbc hm ⟨n, hn, hmem⟩)
      · cases hn.symm.trans hn'
        obtain ⟨m₀, hm₀, hname₀⟩ := hold hbc hm
        obtain ⟨m₁, hm₁, hname₁⟩ := hold hbc' hm'
        refine h.distinct q n b b' m₀ m₁ hn hmem hmem' hm₀ hm₁ ?_
        rw [← hname₀, ← hname₁, heq]

theorem Ok.remove (h : d.Ok legal) (hp : d parent = some p) (he : d e = some n)
    (hparent : n.parent = some parent) : (d.remove parent e p).Ok legal := by
  refine h.pruned ⟨?_, ?_⟩
  · intro q n' hq
    unfold Directory.remove at hq
    by_cases hqe : q = e
    · subst hqe
      simp at hq
    · rw [Function.update_of_ne hqe] at hq
      by_cases hqp : q = parent
      · subst hqp
        rw [Function.update_self] at hq
        cases hq
        exact ⟨p, hp, rfl, rfl, List.erase_sublist⟩
      · rw [Function.update_of_ne hqp] at hq
        exact ⟨n', hq, rfl, rfl, List.Sublist.refl _⟩
  · intro q n' c hq hc
    have hfrom : ∃ m, d q = some m ∧ c ∈ m.children ∧ c ≠ e := by
      unfold Directory.remove at hq
      by_cases hqe : q = e
      · subst hqe
        simp at hq
      · rw [Function.update_of_ne hqe] at hq
        by_cases hqp : q = parent
        · subst hqp
          rw [Function.update_self] at hq
          cases hq
          have hmem := (h.nodup q p hp).mem_erase_iff.mp hc
          exact ⟨p, hp, hmem.2, hmem.1⟩
        · rw [Function.update_of_ne hqp] at hq
          refine ⟨n', hq, hc, ?_⟩
          rintro rfl
          obtain ⟨m, hm, hm', _⟩ := h.child q n' c hq hc
          cases he.symm.trans hm
          exact hqp (Option.some.inj (hm'.symm.trans hparent))
    obtain ⟨m, hm, hmem, hne⟩ := hfrom
    obtain ⟨k, hk, _⟩ := h.child q m c hm hmem
    unfold Directory.remove
    rw [Function.update_of_ne hne]
    by_cases hcp : c = parent
    · simp [hcp]
    · simp [Function.update_of_ne hcp, hk]

/-- A node is added under a new name, or one without children is removed. -/
inductive Step (legal : β → Prop) (d : Directory α β) : Directory α β → Prop
  | add {parent c : α} {p : DirNode α β} {name : β} (hp : d parent = some p) (hc : d c = none)
      (hname : legal name)
      (hnew : ∀ q m, q ∈ p.children → d q = some m → m.name ≠ name) :
      Step legal d (d.add parent c p name)
  | remove {parent e : α} {p n : DirNode α β} (hp : d parent = some p) (he : d e = some n)
      (hparent : n.parent = some parent) (hleaf : n.children = []) :
      Step legal d (d.remove parent e p)

/-- A node without children is removed. -/
inductive Removal (d : Directory α β) : Directory α β → Prop
  | mk {parent e : α} {p n : DirNode α β} (hp : d parent = some p) (he : d e = some n)
      (hparent : n.parent = some parent) (hleaf : n.children = []) : Removal d (d.remove parent e p)

theorem Removal.step (h : Removal d d') : Step legal d d' := by
  cases h with
  | mk hp he hparent hleaf => exact .remove hp he hparent hleaf

theorem Ok.step (h : d.Ok legal) (hs : Step legal d d') : d'.Ok legal := by
  cases hs with
  | add hp hc hname hnew => exact h.add hp hc hname hnew
  | remove hp he hparent => exact h.remove hp he hparent

theorem Ok.steps (h : d.Ok legal) (hs : Relation.ReflTransGen (Step legal) d d') :
    d'.Ok legal := by
  induction hs with
  | refl => exact h
  | tail _ hs ih => exact ih.step hs

/-- A node at the top. -/
def IsRoot (d : Directory α β) (e : α) : Prop := ∃ n, d e = some n ∧ n.parent = none

theorem IsRoot.step (h : d.IsRoot e) (hs : Step legal d d') : d'.IsRoot e := by
  obtain ⟨n, hn, hroot⟩ := h
  cases hs with
  | add hp hc =>
    obtain ⟨n', hn', hparent, _⟩ := add_of_some _ hp hc hn
    exact ⟨n', hn', hparent.trans hroot⟩
  | @remove parent e' p n' hp he hparent =>
    have hne : e ≠ e' := by
      rintro rfl
      cases he.symm.trans hn
      cases hparent.symm.trans hroot
    unfold Directory.remove IsRoot
    rw [Function.update_of_ne hne]
    by_cases hep : e = parent
    · subst hep
      cases hp.symm.trans hn
      exact ⟨_, Function.update_self .., hroot⟩
    · exact ⟨n, by rw [Function.update_of_ne hep, hn], hroot⟩

theorem IsRoot.steps (h : d.IsRoot e) (hs : Relation.ReflTransGen (Step legal) d d') :
    d'.IsRoot e := by
  induction hs with
  | refl => exact h
  | tail _ hs ih => exact ih.step hs

end Changes

/-! ### Names that lead from one node to another -/

/-- Following `names` downwards from a node leads to another one. -/
inductive Leads (d : Directory α β) : α → List β → α → Prop
  | here (e : α) : Leads d e [] e
  | child {e c x : α} {n m : DirNode α β} {name : β} {names : List β} (he : d e = some n)
      (hc : c ∈ n.children) (hm : d c = some m) (hname : m.name = name) (h : Leads d c names x) :
      Leads d e (name :: names) x

variable {x y : α} {names names' : List β}

theorem leads_cons :
    d.Leads e (name :: names) x ↔ ∃ c, d.Leads e [name] c ∧ d.Leads c names x := by
  constructor
  · intro h
    cases h with
    | child he hc hm hname h => exact ⟨_, .child he hc hm hname (.here _), h⟩
  · rintro ⟨c, h, h'⟩
    cases h with
    | child he hc hm hname h =>
      cases h
      exact .child he hc hm hname h'

theorem Ok.leads_unique (hd : d.Ok legal) (h : d.Leads e names x) (h' : d.Leads e names y) :
    x = y := by
  induction h with
  | here => cases h'; rfl
  | child he hc hm hname _ ih =>
    cases h' with
    | child he' hc' hm' hname' h' =>
      cases he.symm.trans he'
      cases hd.distinct _ _ _ _ _ _ he hc hc' hm hm' (hname.trans hname'.symm)
      exact ih h'

/-- The same names lead to a node from one place only. -/
theorem Ok.leads_start (hd : d.Ok legal) (h : d.Leads e names x) {e' : α}
    (h' : d.Leads e' names x) : e = e' := by
  induction h generalizing e' with
  | here => cases h'; rfl
  | child he hc hm hname _ ih =>
    cases h' with
    | child he' hc' hm' hname' h' =>
      cases ih h'
      obtain ⟨m, hm₀, hparent, _⟩ := hd.child _ _ _ he hc
      obtain ⟨m', hm₁, hparent', _⟩ := hd.child _ _ _ he' hc'
      cases hm₀.symm.trans hm₁
      exact Option.some.inj (hparent.symm.trans hparent')

theorem Ok.leads_legal (hd : d.Ok legal) (h : d.Leads e names x) : ∀ name ∈ names, legal name := by
  induction h with
  | here => simp
  | child he hc hm hname _ ih =>
    obtain ⟨m, hm₀, _, hlegal⟩ := hd.child _ _ _ he hc
    cases hm.symm.trans hm₀
    intro name hmem
    rcases List.mem_cons.mp hmem with rfl | hmem
    · exact hname ▸ hlegal
    · exact ih name hmem

theorem Leads.exists_node (h : d.Leads e names x) (he : d e ≠ none) : d x ≠ none := by
  induction h with
  | here => exact he
  | child _ _ hm _ _ ih =>
    refine ih ?_
    rw [hm]
    simp

theorem leads_append :
    d.Leads e (names ++ names') x ↔ ∃ c, d.Leads e names c ∧ d.Leads c names' x := by
  induction names generalizing e with
  | nil =>
    refine ⟨fun h => ⟨e, .here e, h⟩, ?_⟩
    rintro ⟨c, h, h'⟩
    cases h
    exact h'
  | cons name names ih =>
    rw [List.cons_append, leads_cons]
    constructor
    · rintro ⟨a, ha, h⟩
      obtain ⟨c, hc, h'⟩ := ih.mp h
      exact ⟨c, leads_cons.mpr ⟨a, ha, hc⟩, h'⟩
    · rintro ⟨c, h, h'⟩
      obtain ⟨a, ha, hc⟩ := leads_cons.mp h
      exact ⟨a, ha, ih.mpr ⟨c, hc, h'⟩⟩

/-- The last step of a way. -/
theorem Ok.leads_last (hd : d.Ok legal) (h : d.Leads e (names ++ [name]) x) :
    ∃ p m, d.Leads e names p ∧ d x = some m ∧ m.parent = some p ∧ m.name = name := by
  obtain ⟨p, hp, h⟩ := leads_append.mp h
  cases h with
  | child he hc hm hname h =>
    cases h
    obtain ⟨m', hm', hparent, _⟩ := hd.child _ _ _ he hc
    cases hm.symm.trans hm'
    exact ⟨p, _, hp, hm, hparent, hname⟩

theorem IsRoot.leads_nil {r : α} (hr : d.IsRoot r) (hd : d.Ok legal) (h : d.Leads e names r) :
    names = [] := by
  rcases List.eq_nil_or_concat names with hnil | ⟨init, name, rfl⟩
  · exact hnil
  · rw [List.concat_eq_append] at h
    obtain ⟨p, m, _, hm, hparent, _⟩ := hd.leads_last h
    obtain ⟨n, hn, hnone⟩ := hr
    cases hm.symm.trans hn
    cases hparent.symm.trans hnone

/-- Every node has at most one path from the top. -/
theorem Ok.leads_names (hd : d.Ok legal) {r : α} (hr : d.IsRoot r) (h : d.Leads r names x)
    (h' : d.Leads r names' x) : names = names' := by
  induction names using List.reverseRecOn generalizing x names' with
  | nil =>
    cases h
    exact (hr.leads_nil hd h').symm
  | append_singleton init name ih =>
    rcases List.eq_nil_or_concat names' with rfl | ⟨init', name', rfl⟩
    · cases h'
      exact hr.leads_nil hd h
    · rw [List.concat_eq_append] at h' ⊢
      obtain ⟨p, m, hp, hm, hparent, rfl⟩ := hd.leads_last h
      obtain ⟨p', m', hp', hm', hparent', rfl⟩ := hd.leads_last h'
      cases hm.symm.trans hm'
      cases hparent.symm.trans hparent'
      rw [ih hp hp']

/-- Every node is below `r`. -/
def Rooted (d : Directory α β) (r : α) : Prop := ∀ x, d x ≠ none → ∃ names, d.Leads r names x

/-- Every node but the root is in the list of its parent. -/
theorem Rooted.listed {r q : α} (h : d.Rooted r) (hd : d.Ok legal) (hr : d.IsRoot r)
    (hx : d x = some n) (hq : n.parent = some q) : ∃ m, d q = some m ∧ x ∈ m.children := by
  obtain ⟨names, hl⟩ := h x (by simp [hx])
  rcases List.eq_nil_or_concat names with rfl | ⟨init, name, rfl⟩
  · cases hl
    obtain ⟨n', hn', hnone⟩ := hr
    cases hn'.symm.trans hx
    cases hnone.symm.trans hq
  · rw [List.concat_eq_append] at hl
    obtain ⟨p, _, hl⟩ := leads_append.mp hl
    cases hl with
    | child hp hc hm _ hhere =>
      cases hhere
      obtain ⟨m, hm', hparent, _⟩ := hd.child _ _ _ hp hc
      cases hm.symm.trans hm'
      cases hm.symm.trans hx
      cases hparent.symm.trans hq
      exact ⟨_, hp, hc⟩

section Changes

variable [DecidableEq α]

theorem Leads.add (h : d.Leads e names x) (hp : d parent = some p) (hc : d c = none) :
    (d.add parent c p name).Leads e names x := by
  induction h with
  | here => exact .here _
  | @child e b x n m nm names he hb hm hname _ ih =>
    obtain ⟨m', hm', _, hname'⟩ := add_of_some name hp hc hm
    have hec : e ≠ c := by
      rintro rfl
      cases hc.symm.trans he
    by_cases hep : e = parent
    · subst hep
      cases hp.symm.trans he
      refine .child (n := { p with children := p.children ++ [c] }) ?_
        (List.mem_append_left _ hb) hm' (hname'.trans hname) ih
      unfold Directory.add
      rw [Function.update_of_ne hec, Function.update_self]
    · refine .child (n := n) ?_ hb hm' (hname'.trans hname) ih
      unfold Directory.add
      rw [Function.update_of_ne hec, Function.update_of_ne hep, he]

theorem leads_added (hp : d parent = some p) (hc : d c = none) :
    (d.add parent c p name).Leads parent [name] c := by
  have hpc : parent ≠ c := by
    rintro rfl
    cases hc.symm.trans hp
  refine .child (n := { p with children := p.children ++ [c] }) (m := ⟨some parent, name, []⟩) ?_
    (List.mem_append_right _ (List.mem_singleton.mpr rfl)) (Function.update_self ..) rfl (.here c)
  unfold Directory.add
  rw [Function.update_of_ne hpc, Function.update_self]

/-- The way to a node does not pass through one without children. -/
theorem Leads.remove (h : d.Leads e names x) (hd : d.Ok legal) {q : α} (hp : d parent = some p)
    (hq : d q = some n) (hleaf : n.children = []) (hx : x ≠ q) :
    (d.remove parent q p).Leads e names x := by
  induction h with
  | here => exact .here _
  | @child e c x n' m nm names he hc hm hname h ih =>
    have hinner : ∀ {a na b}, d a = some na → b ∈ na.children → a ≠ q := by
      rintro a na b ha hb rfl
      cases hq.symm.trans ha
      rw [hleaf] at hb
      cases hb
    have hcq : c ≠ q := by
      cases h with
      | here => exact hx
      | child hc' hb _ _ _ => exact hinner hc' hb
    obtain ⟨m', hm', hname'⟩ : ∃ m', d.remove parent q p c = some m' ∧ m'.name = m.name := by
      unfold Directory.remove
      rw [Function.update_of_ne hcq]
      by_cases hcp : c = parent
      · subst hcp
        cases hp.symm.trans hm
        exact ⟨_, Function.update_self .., rfl⟩
      · exact ⟨m, by rw [Function.update_of_ne hcp, hm], rfl⟩
    have heq := hinner he hc
    by_cases hep : e = parent
    · subst hep
      cases hp.symm.trans he
      refine .child (n := { p with children := p.children.erase q }) ?_
        ((hd.nodup e p he).mem_erase_iff.mpr ⟨hcq, hc⟩) hm' (hname'.trans hname) (ih hx)
      unfold Directory.remove
      rw [Function.update_of_ne heq, Function.update_self]
    · refine .child (n := n') ?_ hc hm' (hname'.trans hname) (ih hx)
      unfold Directory.remove
      rw [Function.update_of_ne heq, Function.update_of_ne hep, he]

theorem Leads.of_remove {q : α} (hp : d parent = some p)
    (h : (d.remove parent q p).Leads e names x) : d.Leads e names x := by
  have hold : ∀ {a na}, d.remove parent q p a = some na →
      ∃ n, d a = some n ∧ n.name = na.name ∧ ∀ c ∈ na.children, c ∈ n.children := by
    intro a na ha
    unfold Directory.remove at ha
    by_cases haq : a = q
    · subst haq
      rw [Function.update_self] at ha
      cases ha
    · rw [Function.update_of_ne haq] at ha
      by_cases hap : a = parent
      · subst hap
        rw [Function.update_self] at ha
        cases ha
        exact ⟨p, hp, rfl, fun c hc => List.mem_of_mem_erase hc⟩
      · rw [Function.update_of_ne hap] at ha
        exact ⟨na, ha, rfl, fun c hc => hc⟩
  induction h with
  | here => exact .here _
  | child he hc hm hname _ ih =>
    obtain ⟨n, hn, _, hchildren⟩ := hold he
    obtain ⟨m, hm', hname', _⟩ := hold hm
    exact .child hn (hchildren _ hc) hm' (hname'.trans hname) ih

theorem remove_ne_none {q : α} (hp : d parent = some p) (h : d.remove parent q p x ≠ none) :
    x ≠ q ∧ d x ≠ none := by
  unfold Directory.remove at h
  by_cases hxq : x = q
  · subst hxq
    exact absurd (Function.update_self ..) h
  · rw [Function.update_of_ne hxq] at h
    refine ⟨hxq, ?_⟩
    by_cases hxp : x = parent
    · rw [hxp, hp]
      simp
    · rwa [Function.update_of_ne hxp] at h

theorem Rooted.step {r : α} (h : d.Rooted r) (hd : d.Ok legal) (hs : Step legal d d') :
    d'.Rooted r := by
  intro x hx
  cases hs with
  | @add parent c p name hp hc =>
    by_cases hxc : x = c
    · subst hxc
      obtain ⟨names, hl⟩ := h parent (by rw [hp]; simp)
      exact ⟨names ++ [name], leads_append.mpr ⟨parent, hl.add hp hc, leads_added hp hc⟩⟩
    · have hold : d x ≠ none := by
        unfold Directory.add at hx
        rw [Function.update_of_ne hxc] at hx
        by_cases hxp : x = parent
        · rw [hxp, hp]
          simp
        · rwa [Function.update_of_ne hxp] at hx
      obtain ⟨names, hl⟩ := h x hold
      exact ⟨names, hl.add hp hc⟩
  | remove hp hq _ hleaf =>
    obtain ⟨hxq, hold⟩ := remove_ne_none hp hx
    obtain ⟨names, hl⟩ := h x hold
    exact ⟨names, hl.remove hd hp hq hleaf hxq⟩

theorem Rooted.steps {r : α} (h : d.Rooted r) (hd : d.Ok legal)
    (hs : Relation.ReflTransGen (Step legal) d d') : d'.Rooted r := by
  induction hs with
  | refl => exact h
  | tail hs hstep ih => exact ih.step (hd.steps hs) hstep

/-- Removals leave the parents and names of the other nodes as they are. -/
theorem node_removals {n' : DirNode α β} (hs : Relation.ReflTransGen Removal d d')
    (hx : d' x = some n') : ∃ n, d x = some n ∧ n'.parent = n.parent ∧ n'.name = n.name := by
  induction hs generalizing n' with
  | refl => exact ⟨n', hx, rfl, rfl⟩
  | tail _ hr ih =>
    cases hr with
    | @mk parent e p n hp =>
      unfold Directory.remove at hx
      by_cases hxe : x = e
      · subst hxe
        rw [Function.update_self] at hx
        cases hx
      · rw [Function.update_of_ne hxe] at hx
        by_cases hxp : x = parent
        · subst hxp
          rw [Function.update_self] at hx
          cases hx
          obtain ⟨n₀, hn₀, hparent, hname⟩ := ih hp
          exact ⟨n₀, hn₀, hparent, hname⟩
        · rw [Function.update_of_ne hxp] at hx
          exact ih hx

/-- What is left after some removals was there before, at the same place. -/
theorem leads_removals (hd : d.Ok legal) (hs : Relation.ReflTransGen Removal d d')
    (hx : d' x ≠ none) : d x ≠ none ∧ ∀ e names, d.Leads e names x → d'.Leads e names x := by
  induction hs with
  | refl => exact ⟨hx, fun _ _ hl => hl⟩
  | tail hs hr ih =>
    cases hr with
    | mk hp hq _ hleaf =>
      obtain ⟨hne, hx⟩ := remove_ne_none hp hx
      obtain ⟨hx, hleads⟩ := ih hx
      have hd' := hd.steps (hs.lift id fun _ _ hr => hr.step)
      exact ⟨hx, fun e names hl => (hleads e names hl).remove hd' hp hq hleaf hne⟩

end Changes

end Directory

end MangOH
