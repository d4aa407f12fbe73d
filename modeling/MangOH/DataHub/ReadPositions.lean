import MangOH.DataHub.ObsSteps

/-! Where the reads of an Observation stand in its buffer, and what the reference counts of the
buffer entries say about that. -/
namespace MangOH.DataHub

open Outcome BoundedQueue

variable {P : Platform} {ctx : ObsContext} {o o' : Observation} {s : DataSample} {t : DataType}
  {e e' : BufferEntry} {positions positions' : List BufferEntry} {evs : List ObsEvent}

/-- How many of the positions are at the entry with this id. -/
def heldBy (positions : List BufferEntry) (id : Nat) : Nat := positions.countP (·.id = id)

theorem heldBy_cons (e : BufferEntry) (positions : List BufferEntry) (id : Nat) :
    heldBy (e :: positions) id = heldBy positions id + if e.id = id then 1 else 0 := by
  simp [heldBy, List.countP_cons]

theorem heldBy_append (l l' : List BufferEntry) (id : Nat) :
    heldBy (l ++ l') id = heldBy l id + heldBy l' id := List.countP_append

theorem heldBy_eq_zero {l : List BufferEntry} {id : Nat} :
    heldBy l id = 0 ↔ ∀ e ∈ l, e.id ≠ id := by
  simp [heldBy, List.countP_eq_zero]

theorem heldBy_pos {l : List BufferEntry} (he : e ∈ l) : 0 < heldBy l e.id := by
  by_contra h
  exact heldBy_eq_zero.mp (by omega) e he rfl

/-- The buffer holds one reference to each entry in it, and each position one to its entry. An
entry that has fallen out of the buffer is older than all entries in it, and only one position is
at it. -/
structure Held (o : Observation) (positions : List BufferEntry) : Prop where
  increasing : o.sampleList.Pairwise fun a b => a.id < b.id
  listed_lt : ∀ e ∈ o.sampleList, e.id < o.nextEntry
  held_lt : ∀ e ∈ positions, e.id < o.nextEntry
  same : ∀ e ∈ positions, ∀ l ∈ o.sampleList, l.id = e.id → l = e
  refCount : ∀ id, o.refCount id = heldBy o.sampleList id + heldBy positions id
  older : ∀ e ∈ positions, heldBy o.sampleList e.id = 0 → ∀ l ∈ o.sampleList, e.id < l.id
  alone : ∀ e ∈ positions, heldBy o.sampleList e.id = 0 → heldBy positions e.id ≤ 1

theorem Held.congr (h : Held o positions) (hl : o'.sampleList = o.sampleList)
    (hr : o'.refCount = o.refCount) (hn : o'.nextEntry = o.nextEntry) : Held o' positions := by
  obtain ⟨a, b, c, d, e, f, g⟩ := h
  refine ⟨?_, ?_, ?_, ?_, ?_, ?_, ?_⟩
  · rwa [hl]
  · rwa [hl, hn]
  · rwa [hn]
  · rwa [hl]
  · rwa [hl, hr]
  · rwa [hl]
  · rwa [hl]

theorem Held.perm (h : Held o positions) (hp : positions'.Perm positions) : Held o positions' := by
  have hcount : ∀ id, heldBy positions' id = heldBy positions id := fun id => hp.countP_eq _
  refine ⟨h.increasing, h.listed_lt, fun e he => h.held_lt e (hp.mem_iff.mp he),
    fun e he => h.same e (hp.mem_iff.mp he), ?_, fun e he => h.older e (hp.mem_iff.mp he), ?_⟩
  · intro id
    rw [hcount]
    exact h.refCount id
  · intro e he h0
    rw [hcount]
    exact h.alone e (hp.mem_iff.mp he) h0

/-- Entries of the buffer are told apart by their ids. -/
theorem Held.inj (h : Held o positions) (he : e ∈ o.sampleList) (he' : e' ∈ o.sampleList)
    (hid : e.id = e'.id) : e = e' := by
  have hne : o.sampleList.Pairwise fun a b : BufferEntry => a.id ≠ b.id :=
    h.increasing.imp fun hlt => Nat.ne_of_lt hlt
  by_contra hcon
  have hsymm : Std.Symm fun a b : BufferEntry => a.id ≠ b.id := ⟨fun _ _ => Ne.symm⟩
  exact hne.forall he he' hcon hid

theorem Held.mem_of_heldBy (h : Held o positions) (he : e ∈ positions)
    (hpos : heldBy o.sampleList e.id ≠ 0) : e ∈ o.sampleList := by
  have hex : ∃ l ∈ o.sampleList, l.id = e.id := by
    by_contra hno
    exact hpos (heldBy_eq_zero.mpr fun l hl hid => hno ⟨l, hl, hid⟩)
  obtain ⟨l, hl, hid⟩ := hex
  exact h.same e he l hl hid ▸ hl

/-! ### The buffer grows and shrinks -/

theorem held_obsCreate : Held obsCreate [] := by
  refine ⟨List.Pairwise.nil, ?_, ?_, ?_, fun _ => rfl, ?_, ?_⟩ <;> simp [obsCreate]

theorem held_queue (h : Held o positions) (s : DataSample) :
    Held (addToBuffer.queue o s) positions := by
  have hfresh : ∀ l : List BufferEntry, (∀ e ∈ l, e.id < o.nextEntry) →
      heldBy l o.nextEntry = 0 := fun l hl =>
    heldBy_eq_zero.mpr fun e he => Nat.ne_of_lt (hl e he)
  have hstill : ∀ e ∈ positions, heldBy (o.sampleList ++ [⟨o.nextEntry, s⟩]) e.id = 0 →
      heldBy o.sampleList e.id = 0 := by
    intro e _ h0
    rw [heldBy_append] at h0
    omega
  refine ⟨?_, ?_, ?_, ?_, ?_, ?_, ?_⟩
  · refine List.pairwise_append.mpr ⟨h.increasing, List.pairwise_singleton _ _, ?_⟩
    intro a ha b hb
    rw [List.mem_singleton.mp hb]
    exact h.listed_lt a ha
  · intro e he
    rcases List.mem_append.mp he with he | he
    · exact Nat.lt_succ_of_lt (h.listed_lt e he)
    · rw [List.mem_singleton.mp he]
      exact Nat.lt_succ_self _
  · intro e he
    exact Nat.lt_succ_of_lt (h.held_lt e he)
  · intro e he l hl hid
    rcases List.mem_append.mp hl with hl | hl
    · exact h.same e he l hl hid
    · rw [List.mem_singleton.mp hl] at hid
      exact absurd hid.symm (Nat.ne_of_lt (h.held_lt e he))
  · intro id
    have hcount := h.refCount id
    simp only [addToBuffer.queue, heldBy_append, heldBy_cons]
    by_cases hid : id = o.nextEntry
    · subst hid
      rw [Function.update_self, hfresh _ h.listed_lt, hfresh _ h.held_lt]
      simp [heldBy]
    · rw [Function.update_of_ne hid, hcount, if_neg fun heq => hid heq.symm]
      simp [heldBy]
  · intro e he h0 l hl
    rcases List.mem_append.mp hl with hl | hl
    · exact h.older e he (hstill e he h0) l hl
    · rw [List.mem_singleton.mp hl]
      exact h.held_lt e he
  · exact fun e he h0 => h.alone e he (hstill e he h0)

theorem held_addToBuffer (h : Held o positions) (s : DataSample) :
    Held (addToBuffer o s) positions := by
  rcases addToBuffer_cases o s with ⟨ha, _⟩ | ha <;> rw [ha]
  · exact h
  · exact held_queue h s

/-- The oldest entry falls out of the buffer. Its references must not be more than the buffer's own
and that of one read. -/
theorem held_pop {rest : List BufferEntry} (h : Held o positions) (hl : o.sampleList = e :: rest)
    (hfew : o.refCount e.id ≤ 2) (count : Nat) :
    Held ({ o with sampleList := rest, count }.release e) positions := by
  obtain ⟨hinc, hlt, hheld, hsame, hcount, holder, halone⟩ := h
  rw [hl] at hinc hlt hsame hcount holder halone
  have hrest : ∀ l ∈ rest, e.id < l.id := fun l hmem => List.rel_of_pairwise_cons hinc hmem
  have hgone : heldBy rest e.id = 0 :=
    heldBy_eq_zero.mpr fun l hmem => (Nat.ne_of_lt (hrest l hmem)).symm
  have hsplit : ∀ p : BufferEntry, heldBy rest p.id = 0 →
      p.id = e.id ∨ heldBy (e :: rest) p.id = 0 := by
    intro p h0
    rw [heldBy_cons, h0]
    by_cases hid : p.id = e.id
    · exact .inl hid
    · exact .inr (by simp [Ne.symm hid])
  refine ⟨hinc.of_cons, fun l hmem => hlt l (List.mem_cons_of_mem _ hmem), hheld,
    fun p hp l hmem => hsame p hp l (List.mem_cons_of_mem _ hmem), ?_, ?_, ?_⟩
  · intro id
    have hid := hcount id
    rw [heldBy_cons] at hid
    by_cases heq : id = e.id
    · subst heq
      simp only [Observation.release, Function.update_self]
      rw [if_pos rfl] at hid
      omega
    · simp only [Observation.release, Function.update_of_ne heq]
      rw [if_neg fun h => heq h.symm] at hid
      omega
  · intro p hp h0 l hmem
    rcases hsplit p h0 with hid | h0'
    · rw [hid]
      exact hrest l hmem
    · exact holder p hp h0' l (List.mem_cons_of_mem _ hmem)
  · intro p hp h0
    rcases hsplit p h0 with hid | h0'
    · have hid' := hcount e.id
      rw [heldBy_cons, if_pos rfl, hgone] at hid'
      rw [hid]
      omega
    · exact halone p hp h0'

/-- No entry falls out of the buffer while two reads are at it. -/
def FewReaders (evs : List ObsEvent) : Prop := ∀ refCount, .evicting refCount ∈ evs → refCount ≤ 2

theorem FewReaders.left {evs' : List ObsEvent} (h : FewReaders (evs ++ evs')) : FewReaders evs :=
  fun rc hrc => h rc (List.mem_append_left _ hrc)

theorem FewReaders.right {evs' : List ObsEvent} (h : FewReaders (evs ++ evs')) :
    FewReaders evs' := fun rc hrc => h rc (List.mem_append_right _ hrc)

theorem held_truncateLoop (k : Nat) (h : Held o positions) :
    Returns (truncateLoop k o) fun r => FewReaders r.2 → Held r.1 positions := by
  induction k generalizing o with
  | zero => exact fun _ => h
  | succ k ih =>
    unfold truncateLoop popOldest
    split
    · exact id
    · next e rest hl =>
      refine Returns.of_ok fun r hr => ?_
      obtain ⟨popped, hpop, hr⟩ := bind_eq_ok.mp hr
      cases hpop
      obtain ⟨⟨o₂, evs₂⟩, hrest, hr⟩ := bind_eq_ok.mp hr
      cases hr
      intro hfew
      have hpopped := held_pop h hl (hfew _ (List.mem_cons_self ..)) (o.count - 1)
      have hloop := (ih hpopped).result (a := (o₂, evs₂)) hrest
      exact hloop fun rc hrc => hfew rc (List.mem_cons_of_mem _ hrc)

theorem held_truncateBuffer (n : Nat) (h : Held o positions) :
    Returns (truncateBuffer o n) fun r => FewReaders r.2 → Held r.1 positions :=
  held_truncateLoop _ h

/-! ### The position of one read -/

theorem held_release (h : Held o (e :: positions)) : Held (o.release e) positions := by
  have hsub : ∀ p ∈ positions, p ∈ e :: positions := fun p hp => List.mem_cons_of_mem _ hp
  refine ⟨h.increasing, h.listed_lt, fun p hp => h.held_lt p (hsub p hp),
    fun p hp => h.same p (hsub p hp), ?_, fun p hp => h.older p (hsub p hp), ?_⟩
  · intro id
    have hid := h.refCount id
    rw [heldBy_cons] at hid
    by_cases heq : id = e.id
    · subst heq
      simp only [Observation.release, Function.update_self]
      rw [if_pos rfl] at hid
      omega
    · simp only [Observation.release, Function.update_of_ne heq]
      rw [if_neg fun h => heq h.symm] at hid
      omega
  · intro p hp h0
    have := h.alone p (hsub p hp) h0
    rw [heldBy_cons] at this
    omega

theorem held_addRef (h : Held o positions) (he : e ∈ o.sampleList) :
    Held (o.addRef e) (e :: positions) := by
  have hne : ∀ p : BufferEntry, heldBy o.sampleList p.id = 0 → p.id ≠ e.id := by
    intro p h0 hid
    exact heldBy_eq_zero.mp h0 e he hid.symm
  refine ⟨h.increasing, h.listed_lt, ?_, ?_, ?_, ?_, ?_⟩
  · intro p hp
    rcases List.mem_cons.mp hp with rfl | hp
    · exact h.listed_lt p he
    · exact h.held_lt p hp
  · intro p hp l hl hid
    rcases List.mem_cons.mp hp with rfl | hp
    · exact h.inj hl he hid
    · exact h.same p hp l hl hid
  · intro id
    have hid := h.refCount id
    rw [heldBy_cons]
    by_cases heq : id = e.id
    · subst heq
      simp only [Observation.addRef, Function.update_self, if_true]
      omega
    · simp only [Observation.addRef, Function.update_of_ne heq]
      rw [if_neg fun h => heq h.symm]
      omega
  · intro p hp h0
    rcases List.mem_cons.mp hp with rfl | hp
    · exact absurd rfl (hne p h0)
    · exact h.older p hp h0
  · intro p hp h0
    rw [heldBy_cons, if_neg fun hid => hne p h0 hid.symm]
    rcases List.mem_cons.mp hp with rfl | hp
    · exact absurd rfl (hne p h0)
    · exact h.alone p hp h0

/-- A read moves on, or comes to an end. -/
theorem held_move {next : Option BufferEntry} (h : Held o (e :: positions))
    (hnext : ∀ n, next = some n → n ∈ o.sampleList) :
    Held ((o.release e).hold next) (next.toList ++ positions) := by
  have hr := held_release h
  cases next with
  | none => exact hr
  | some n => exact held_addRef hr (hnext n rfl)

/-- `catchUp` tells rightly whether the position is still in the buffer. -/
theorem held_catchUp (h : Held o (e :: positions)) :
    Held (catchUp o e).1 ((catchUp o e).2.toList ++ positions) ∧
    ((e ∈ o.sampleList ∧ (catchUp o e).2 = some e) ∨
      (∀ l ∈ o.sampleList, e.id < l.id) ∧ (catchUp o e).2 = o.sampleList.head?) := by
  have hmem : e ∈ e :: positions := List.mem_cons_self ..
  have hcount := h.refCount e.id
  rw [heldBy_cons, if_pos rfl] at hcount
  by_cases h0 : heldBy o.sampleList e.id = 0
  · have halone := h.alone e hmem h0
    rw [heldBy_cons, if_pos rfl] at halone
    have hone : o.refCount e.id = 1 := by omega
    have hmoved := held_move h fun n (hn : o.sampleList.head? = some n) => List.mem_of_head? hn
    unfold catchUp getOldestBufferEntry
    rw [if_pos hone]
    dsimp only
    rw [show (o.release e).sampleList = o.sampleList from rfl]
    cases hhead : o.sampleList.head? with
    | none =>
      rw [hhead] at hmoved
      exact ⟨hmoved, .inr ⟨h.older e hmem h0, rfl⟩⟩
    | some oldest =>
      rw [hhead] at hmoved
      exact ⟨hmoved, .inr ⟨h.older e hmem h0, rfl⟩⟩
  · have hmore : o.refCount e.id ≠ 1 := by omega
    unfold catchUp
    rw [if_neg hmore]
    exact ⟨h, .inl ⟨h.mem_of_heldBy hmem h0, rfl⟩⟩

/-- Where the loop of a load goes on: at the oldest entry that is not older than its position. -/
theorem catchUp_cases (h : Held o (e :: positions)) :
    ((catchUp o e).2 = none ∧ o.sampleList = [] ∧ Held (catchUp o e).1 positions) ∨
    ∃ e', (catchUp o e).2 = some e' ∧ e' ∈ o.sampleList ∧ e.id ≤ e'.id ∧
      (∀ l ∈ o.sampleList, e.id ≤ l.id → e'.id ≤ l.id) ∧
      Held (catchUp o e).1 (e' :: positions) := by
  obtain ⟨hheld, ⟨he, hsome⟩ | ⟨holder, hhead⟩⟩ := held_catchUp h
  · rw [hsome] at hheld
    exact .inr ⟨e, hsome, he, Nat.le_refl _, fun l _ hl => hl, hheld⟩
  · rw [hhead] at hheld ⊢
    cases hlist : o.sampleList with
    | nil =>
      rw [hlist] at hheld
      exact .inl ⟨rfl, rfl, hheld⟩
    | cons oldest rest =>
      have hinc := h.increasing
      rw [hlist] at hheld hinc holder
      refine .inr ⟨oldest, rfl, List.mem_cons_self .., ?_, ?_, hheld⟩
      · exact Nat.le_of_lt (holder oldest (List.mem_cons_self ..))
      · intro l hl _
        rcases List.mem_cons.mp hl with rfl | hl
        · exact Nat.le_refl _
        · exact Nat.le_of_lt (List.rel_of_pairwise_cons hinc hl)

/-- What follows an entry in the buffer. -/
theorem getNextBufferEntry_spec (h : Held o positions) (he : e ∈ o.sampleList) :
    (∀ n, getNextBufferEntry P o e = some n → n ∈ o.sampleList ∧ e.id < n.id ∧
      ∀ l ∈ o.sampleList, e.id < l.id → n.id ≤ l.id) ∧
    (getNextBufferEntry P o e = none → ∀ l ∈ o.sampleList, l.id ≤ e.id) := by
  obtain ⟨before, after, hsplit⟩ := List.append_of_mem he
  have hinc := h.increasing
  rw [hsplit, List.pairwise_append] at hinc
  obtain ⟨_, hafter, hbefore⟩ := hinc
  have hlt : ∀ l ∈ before, l.id < e.id := fun l hl => hbefore l hl e (List.mem_cons_self ..)
  have hdrop : o.sampleList.dropWhile (fun l => decide (l.id ≠ e.id)) = e :: after := by
    rw [hsplit, List.dropWhile_append_of_pos]
    · simp
    · intro l hl
      simpa using Nat.ne_of_lt (hlt l hl)
  have hnext : getNextBufferEntry P o e = after.head? := by
    unfold getNextBufferEntry
    rw [hdrop]
  rw [hnext]
  cases after with
  | nil =>
    refine ⟨by simp, fun _ l hl => ?_⟩
    rw [hsplit] at hl
    rcases List.mem_append.mp hl with hl | hl
    · exact Nat.le_of_lt (hlt l hl)
    · rw [List.mem_singleton.mp hl]
  | cons n after =>
    refine ⟨?_, by simp⟩
    rintro _ ⟨⟩
    have hen : e.id < n.id := List.rel_of_pairwise_cons hafter (List.mem_cons_self ..)
    refine ⟨by simp [hsplit], hen, fun l hl hel => ?_⟩
    rw [hsplit] at hl
    rcases List.mem_append.mp hl with hl | hl
    · have := hlt l hl
      omega
    · rcases List.mem_cons.mp hl with rfl | hl
      · omega
      · rcases List.mem_cons.mp hl with rfl | hl
        · exact Nat.le_refl _
        · exact Nat.le_of_lt (List.rel_of_pairwise_cons hafter.of_cons hl)

theorem advance_eq (P : Platform) (o : Observation) (e : BufferEntry) :
    advance P o e = ((o.release e).hold (getNextBufferEntry P o e), getNextBufferEntry P o e) := by
  unfold advance
  split
  · next n hn => rw [hn]; rfl
  · next hn => rw [hn]; rfl

theorem held_advance (h : Held o (e :: positions)) (he : e ∈ o.sampleList) :
    Held (advance P o e).1 ((advance P o e).2.toList ++ positions) := by
  rw [advance_eq]
  exact held_move h fun n hn => ((getNextBufferEntry_spec h he).1 n hn).1

end MangOH.DataHub
