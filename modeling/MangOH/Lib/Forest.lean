import Mathlib.Data.List.Nodup

/-! The nodes of a forest with their depths, parents before children and siblings in their order. -/
namespace MangOH.Forest

variable {α : Type} {children : α → List α} {roots : List α} {a b c : α} {d k m n : Nat}
  {visits : List (α × Nat)}

/-- `visits` are the nodes of the trees under these roots, which are at depth `d`. -/
inductive Lists (children : α → List α) : List α → Nat → List (α × Nat) → Prop
  | nil (d : Nat) : Lists children [] d []
  | cons {a : α} {rest : List α} {d : Nat} {below after : List (α × Nat)}
      (hbelow : Lists children (children a) (d + 1) below) (hafter : Lists children rest d after) :
      Lists children (a :: rest) d ((a, d) :: (below ++ after))

/-- A node is so many levels below another. -/
inductive Below (children : α → List α) : α → Nat → α → Prop
  | here (a : α) : Below children a 0 a
  | child {a b c : α} {n : Nat} (hb : b ∈ children a) (hc : Below children b n c) :
      Below children a (n + 1) c

/-- No node has two parents, is listed twice or lies below itself. -/
structure IsForest (children : α → List α) : Prop where
  parent : ∀ a b c, c ∈ children a → c ∈ children b → a = b
  nodup : ∀ a, (children a).Nodup
  acyclic : ∀ a n, ¬ Below children a (n + 1) a

/-! ### Levels -/

theorem Below.exists_parent (hc : Below children a (n + 1) c) :
    ∃ b, Below children a n b ∧ c ∈ children b := by
  induction n generalizing a with
  | zero =>
    cases hc with
    | child hb hc =>
      cases hc
      exact ⟨a, .here a, hb⟩
  | succ n ih =>
    cases hc with
    | child hb hc =>
      obtain ⟨p, hp, hpc⟩ := ih hc
      exact ⟨p, .child hb hp, hpc⟩

theorem Below.trans (hb : Below children a m b) (hc : Below children b n c) :
    Below children a (m + n) c := by
  induction hb with
  | here => rwa [Nat.zero_add]
  | child hb _ ih =>
    rw [Nat.succ_add]
    exact .child hb (ih hc)

/-- Of two nodes above a third one, the farther is above the nearer. -/
theorem Below.above_nearer (hf : IsForest children) (ha : Below children a m c)
    (hb : Below children b (m + n) c) : Below children b n a := by
  induction m generalizing c with
  | zero =>
    cases ha
    rwa [Nat.zero_add] at hb
  | succ m ih =>
    obtain ⟨p, hp, hpc⟩ := ha.exists_parent
    rw [Nat.succ_add] at hb
    obtain ⟨q, hq, hqc⟩ := hb.exists_parent
    cases hf.parent p q c hpc hqc
    exact ih hp hq

/-! ### The list of nodes -/

/-- Where every step down makes some measure smaller, the list comes to an end. -/
theorem exists_lists {height : α → Nat} (hheight : ∀ a, ∀ b ∈ children a, height b < height a)
    (roots : List α) (d : Nat) : ∃ visits, Lists children roots d visits := by
  have hbounded : ∀ bound, ∀ roots d, (∀ a ∈ roots, height a < bound) →
      ∃ visits, Lists children roots d visits := by
    intro bound
    induction bound with
    | zero =>
      intro roots d hroots
      cases roots with
      | nil => exact ⟨[], .nil d⟩
      | cons a rest => exact absurd (hroots a List.mem_cons_self) (Nat.not_lt_zero _)
    | succ bound ih =>
      intro roots d hroots
      induction roots with
      | nil => exact ⟨[], .nil d⟩
      | cons a rest ihrest =>
        have ha := hroots a List.mem_cons_self
        obtain ⟨below, hbelow⟩ := ih (children a) (d + 1) fun b hb =>
          Nat.lt_of_lt_of_le (hheight a b hb) (Nat.le_of_lt_succ ha)
        obtain ⟨after, hafter⟩ := ihrest fun b hb => hroots b (List.mem_cons_of_mem _ hb)
        exact ⟨_, .cons hbelow hafter⟩
  obtain ⟨bound, hbound⟩ : ∃ bound, ∀ a ∈ roots, height a < bound := by
    induction roots with
    | nil => exact ⟨0, by simp⟩
    | cons a rest ih =>
      obtain ⟨bound, hbound⟩ := ih
      refine ⟨max (height a + 1) bound, fun b hb => ?_⟩
      rcases List.mem_cons.mp hb with rfl | hb
      · omega
      · have := hbound b hb
        omega
  exact hbounded bound roots d hbound

/-- The list has the nodes of the trees, each with its depth. -/
theorem Lists.mem_iff (hv : Lists children roots d visits) :
    (c, k) ∈ visits ↔ ∃ a ∈ roots, ∃ n, Below children a n c ∧ k = d + n := by
  induction hv with
  | nil => simp
  | @cons a rest d below after hbelow hafter ihbelow ihafter =>
    rw [List.mem_cons, List.mem_append, ihbelow, ihafter]
    constructor
    · rintro (heq | ⟨b, hb, n, hn, rfl⟩ | ⟨b, hb, n, hn, rfl⟩)
      · cases heq
        exact ⟨c, List.mem_cons_self, 0, .here c, rfl⟩
      · exact ⟨a, List.mem_cons_self, n + 1, .child hb hn, by omega⟩
      · exact ⟨b, List.mem_cons_of_mem _ hb, n, hn, rfl⟩
    · rintro ⟨b, hb, n, hn, rfl⟩
      rcases List.mem_cons.mp hb with rfl | hb
      · cases hn with
        | here => exact .inl rfl
        | child hb hn => exact .inr (.inl ⟨_, hb, _, hn, by omega⟩)
      · exact .inr (.inr ⟨b, hb, n, hn, rfl⟩)

/-- The list for the children of a node has what is strictly below it. -/
theorem Lists.mem_below_iff (hv : Lists children (children a) (d + 1) visits) :
    (c, k) ∈ visits ↔ ∃ n, Below children a (n + 1) c ∧ k = d + (n + 1) := by
  rw [hv.mem_iff]
  constructor
  · rintro ⟨b, hb, n, hn, rfl⟩
    exact ⟨n, .child hb hn, by omega⟩
  · rintro ⟨n, hn, rfl⟩
    cases hn with
    | child hb hn => exact ⟨_, hb, n, hn, by omega⟩

theorem Lists.mem_fst_iff (hv : Lists children roots d visits) :
    c ∈ visits.map Prod.fst ↔ ∃ a ∈ roots, ∃ n, Below children a n c := by
  constructor
  · intro hc
    obtain ⟨⟨_, k⟩, hmem, rfl⟩ := List.mem_map.mp hc
    obtain ⟨a, ha, n, hn, -⟩ := hv.mem_iff.mp hmem
    exact ⟨a, ha, n, hn⟩
  · rintro ⟨a, ha, n, hn⟩
    exact List.mem_map.mpr ⟨(c, d + n), hv.mem_iff.mpr ⟨a, ha, n, hn, rfl⟩, rfl⟩

theorem eq_of_apart_of_le (hf : IsForest children) (hapart : ∀ n, ¬ Below children b (n + 1) a)
    (hac : Below children a m c) (hbc : Below children b (m + n) c) : a = b := by
  have hba := hac.above_nearer hf hbc
  cases n with
  | zero =>
    cases hba
    rfl
  | succ n => exact absurd hba (hapart n)

/-- Trees apart from each other have no node in common. -/
theorem eq_of_apart (hf : IsForest children)
    (hapart : ∀ a ∈ roots, ∀ b ∈ roots, ∀ n, ¬ Below children a (n + 1) b) (ha : a ∈ roots)
    (hb : b ∈ roots) (hac : Below children a m c) (hbc : Below children b n c) : a = b := by
  rcases Nat.le_total m n with hmn | hmn
  · obtain ⟨k, rfl⟩ := Nat.exists_eq_add_of_le hmn
    exact eq_of_apart_of_le hf (hapart b hb a ha) hac hbc
  · obtain ⟨k, rfl⟩ := Nat.exists_eq_add_of_le hmn
    exact (eq_of_apart_of_le hf (hapart a ha b hb) hbc hac).symm

/-- Siblings are apart from each other. -/
theorem children_apart (hf : IsForest children) (a : α) :
    ∀ b ∈ children a, ∀ c ∈ children a, ∀ n, ¬ Below children b (n + 1) c := by
  intro b hb c hc n hbc
  obtain ⟨p, hp, hpc⟩ := hbc.exists_parent
  cases hf.parent a p c hc hpc
  exact hf.acyclic a n (.child hb hp)

/-- The list has no node twice. -/
theorem Lists.nodup (hf : IsForest children) (hv : Lists children roots d visits)
    (hroots : roots.Nodup)
    (hapart : ∀ a ∈ roots, ∀ b ∈ roots, ∀ n, ¬ Below children a (n + 1) b) :
    (visits.map Prod.fst).Nodup := by
  induction hv with
  | nil => exact .nil
  | @cons a rest d below after hbelow hafter ihbelow ihafter =>
    obtain ⟨hnot, hrest⟩ := List.nodup_cons.mp hroots
    have hb := ihbelow (hf.nodup a) (children_apart hf a)
    have ha := ihafter hrest fun b hb c hc =>
      hapart b (List.mem_cons_of_mem _ hb) c (List.mem_cons_of_mem _ hc)
    have hself : ∀ n c, Below children a n c → c ∉ after.map Prod.fst := by
      intro n c hac hc
      obtain ⟨b, hbrest, m, hbc⟩ := hafter.mem_fst_iff.mp hc
      cases eq_of_apart hf hapart List.mem_cons_self (List.mem_cons_of_mem _ hbrest) hac hbc
      exact hnot hbrest
    rw [List.map_cons, List.map_append, List.nodup_cons, List.nodup_append]
    refine ⟨?_, hb, ha, ?_⟩
    · rw [List.mem_append, not_or]
      refine ⟨fun hmem => ?_, hself 0 a (.here a)⟩
      obtain ⟨b, hba, n, hn⟩ := hbelow.mem_fst_iff.mp hmem
      exact hf.acyclic a n (.child hba hn)
    · rintro c hc c' hc' rfl
      obtain ⟨b, hba, n, hn⟩ := hbelow.mem_fst_iff.mp hc
      exact hself (n + 1) c (.child hba hn) hc'

end MangOH.Forest
