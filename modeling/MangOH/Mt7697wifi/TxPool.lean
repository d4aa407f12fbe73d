import Mathlib.Data.List.Count
import MangOH.Lib.Turns
import MangOH.Mt7697wifi.Txrx

/-! The slots of the transmit pool and who owns the packets in them. -/
namespace MangOH.Mt7697wifi
open Lib Mt7697q

variable {τ : Type} {write : τ → List Word → Except Errno Nat × τ} {s t : TxState τ}

def TxState.log (s : TxState τ) : List TxAct := s.path.log

/-- The packets in the linked slots, in the order of the list. -/
def TxState.held (s : TxState τ) : List Skb := s.txSkbList.filterMap s.txSkbPool

/-- A slot has a packet while it is linked, the slots are taken in turn, and each packet that the
driver took is freed once, after it has left its slot. -/
structure TxPoolOk (s : TxState τ) : Prop where
  linked_iff : ∀ i, s.txSkbPool i ≠ none ↔ i ∈ s.txSkbList
  linked_once : s.txSkbList.Nodup
  inTurn : s.txSkbList = (List.range s.txSkbList.length).map fun j =>
    (s.txSkbPoolIdx + (txPktPoolLen - s.txSkbList.length) + j) % txPktPoolLen
  ok_freed : ∀ id, .ok id ∈ s.log →
    s.log.count (.freed ⟨id, false⟩) = if ⟨id, false⟩ ∈ s.held.map Skb.ref then 0 else 1
  copy_freed : ∀ id, .copied id ∈ s.log →
    s.log.count (.freed ⟨id, true⟩) = if ⟨id, true⟩ ∈ s.held.map Skb.ref then 0 else 1
  busy_kept : ∀ id, .ok id ∉ s.log → .freed ⟨id, false⟩ ∉ s.log

/-- The act that makes a buffer the driver's to free. -/
def SkbRef.taken (ref : SkbRef) : TxAct := if ref.isCopy then .copied ref.id else .ok ref.id

structure TxPoolInv (s : TxState τ) : Prop where
  linked_iff : ∀ i, s.txSkbPool i ≠ none ↔ i ∈ s.txSkbList
  inTurn : ∃ head, s.txSkbList = turns txPktPoolLen head s.txSkbList.length
    ∧ s.txSkbPoolIdx = (head + s.txSkbList.length) % txPktPoolLen
  length_le : s.txSkbList.length ≤ txPktPoolLen
  queue_nil : s.txSkbQueue = []
  balance : ∀ ref, s.log.count (.freed ref) + (s.held.map Skb.ref).count ref
    = s.log.count ref.taken
  ok_once : ∀ id, s.log.count (.ok id) ≤ 1
  copied_ok : ∀ id, s.log.count (.copied id) ≤ s.log.count (.ok id)

theorem TxPoolInv.nodup (h : TxPoolInv s) : s.txSkbList.Nodup := by
  obtain ⟨head, hlist, -⟩ := h.inTurn
  rw [hlist]
  exact nodup_turns _ h.length_le

theorem TxPoolInv.txPoolOk (h : TxPoolInv s) : TxPoolOk s := by
  have hfreed : ∀ ref : SkbRef, s.log.count ref.taken ≤ 1 → ref.taken ∈ s.log →
      s.log.count (.freed ref) = if ref ∈ s.held.map Skb.ref then 0 else 1 := by
    intro ref hle hmem
    have hbal := h.balance ref
    have hpos := List.count_pos_iff.mpr hmem
    split
    · have := List.count_pos_iff.mpr ‹ref ∈ s.held.map Skb.ref›
      omega
    · have := List.count_eq_zero.mpr ‹ref ∉ s.held.map Skb.ref›
      omega
  refine ⟨h.linked_iff, h.nodup, ?_, fun id hmem => ?_, fun id hmem => ?_, fun id hno hmem => ?_⟩
  · obtain ⟨head, hlist, hidx⟩ := h.inTurn
    conv_lhs => rw [hlist, turns_eq_of_next h.length_le, ← hidx]
  · exact hfreed ⟨id, false⟩ (h.ok_once id) hmem
  · exact hfreed ⟨id, true⟩ ((h.copied_ok id).trans (h.ok_once id)) hmem
  · have hbal := h.balance ⟨id, false⟩
    have hpos := List.count_pos_iff.mpr hmem
    have hzero : s.log.count (SkbRef.taken ⟨id, false⟩) = 0 := List.count_eq_zero.mpr hno
    omega

section DataTx

variable {neededHeadroom : Nat} {skb : Skb} {realloc : Bool}

theorem TxPoolInv.next_free (h : TxPoolInv s) (hfree : s.txSkbPool s.txSkbPoolIdx = none) :
    s.txSkbPoolIdx ∉ s.txSkbList ∧ s.txSkbList.length < txPktPoolLen := by
  have hnot : s.txSkbPoolIdx ∉ s.txSkbList := fun hmem => (h.linked_iff _).mpr hmem hfree
  refine ⟨hnot, lt_of_le_of_ne h.length_le fun hfull => hnot ?_⟩
  obtain ⟨head, hlist, hidx⟩ := h.inTurn
  rw [hlist, hidx]
  exact next_mem_turns (hfull ▸ Nat.succ_pos 255) hfull

/-- What happens to the packets in the log and in the pool when the next slot is filled. -/
theorem held_fill {idx : Nat} {list : List Nat} {pool : Nat → Option Skb} (h : idx ∉ list) :
    (list ++ [idx]).filterMap (Function.update pool idx (some skb))
      = list.filterMap pool ++ [skb] := by
  rw [List.filterMap_append]
  congr 1
  · refine List.filterMap_congr fun i hi => ?_
    exact Function.update_of_ne (fun heq : i = idx => h (heq ▸ hi)) _ _
  · simp

/-- The acts of a call: buffers are taken over, and freed or kept in `kept`. -/
structure Balanced (s : TxState τ) (acts : List TxAct) (kept : List SkbRef) : Prop where
  balance : ∀ ref, acts.count (.freed ref) + kept.count ref = acts.count ref.taken
  ok_once : ∀ id, s.log.count (.ok id) + acts.count (.ok id) ≤ 1
  copied_ok : ∀ id, acts.count (.copied id) ≤ acts.count (.ok id)

/-- The next slot is filled with a packet that is the driver's from now on. -/
theorem TxPoolInv.fill (h : TxPoolInv s) (hfree : s.txSkbPool s.txSkbPoolIdx = none)
    {acts : List TxAct} {pending : Bool} (hacts : Balanced s acts [skb.ref]) :
    TxPoolInv { s.act acts with
      txSkbPool := Function.update s.txSkbPool s.txSkbPoolIdx (some skb)
      txSkbPoolIdx := if s.txSkbPoolIdx + 1 ≥ txPktPoolLen then 0 else s.txSkbPoolIdx + 1
      txSkbList := s.txSkbList ++ [s.txSkbPoolIdx]
      txWorkPending := pending } := by
  obtain ⟨hnot, hlt⟩ := h.next_free hfree
  obtain ⟨head, hlist, hidx⟩ := h.inTurn
  refine ⟨fun i => ?_, ⟨head, ?_, ?_⟩, ?_, h.queue_nil, fun ref => ?_, fun id => ?_, fun id => ?_⟩
  · by_cases hi : i = s.txSkbPoolIdx
    · simp [hi]
    · simp [hi, Function.update_of_ne, h.linked_iff]
  · simp only [List.length_append, List.length_singleton, turns_succ, ← hidx, ← hlist]
  · simp only [List.length_append, List.length_singleton, hidx]
    exact next_turn (Nat.succ_pos 255) _
  · simp only [List.length_append, List.length_singleton]
    omega
  · have hold := h.balance ref
    have hnew := hacts.balance ref
    simp only [TxState.log, TxState.act, TxState.held, held_fill hnot, List.count_append,
      List.map_append, List.map_singleton] at hold ⊢
    omega
  · simpa only [TxState.log, TxState.act, List.count_append] using hacts.ok_once id
  · have hold := h.copied_ok id
    have hnew := hacts.copied_ok id
    simp only [TxState.log, TxState.act, List.count_append] at hold ⊢
    omega

theorem TxPoolInv.act (h : TxPoolInv s) (acts : List TxAct) (hacts : Balanced s acts []) :
    TxPoolInv (s.act acts) := by
  refine ⟨h.linked_iff, h.inTurn, h.length_le, h.queue_nil, fun ref => ?_, fun id => ?_,
    fun id => ?_⟩
  · have hold := h.balance ref
    have hnew := hacts.balance ref
    simp only [TxState.log, TxState.act, TxState.held, List.count_append,
      List.count_nil] at hold hnew ⊢
    omega
  · simpa only [TxState.log, TxState.act, List.count_append] using hacts.ok_once id
  · have hold := h.copied_ok id
    have hnew := hacts.copied_ok id
    simp only [TxState.log, TxState.act, List.count_append] at hold ⊢
    omega

/-- A packet is taken as it is, as a copy, or not at all. -/
theorem balanced_ok (h : TxPoolInv s) {id : Nat} (hnew : .ok id ∉ s.log) {acts : List TxAct}
    {kept : List SkbRef}
    (hacts : acts = [.ok id] ∧ kept = [⟨id, false⟩]
      ∨ acts = [.copied id, .freed ⟨id, false⟩, .ok id] ∧ kept = [⟨id, true⟩]
      ∨ acts = [.freed ⟨id, false⟩, .ok id] ∧ kept = []) : Balanced s acts kept := by
  have hzero := List.count_eq_zero.mpr hnew
  have hcount : ∀ id', acts.count (.ok id') = if id = id' then 1 else 0 := by
    intro id'
    rcases hacts with ⟨rfl, rfl⟩ | ⟨rfl, rfl⟩ | ⟨rfl, rfl⟩ <;> simp [List.count_cons]
  refine ⟨?_, fun id' => ?_, fun id' => ?_⟩
  · rintro ⟨id', copy⟩
    rcases hacts with ⟨rfl, rfl⟩ | ⟨rfl, rfl⟩ | ⟨rfl, rfl⟩ <;> cases copy <;>
      simp [SkbRef.taken, List.count_cons]
  · have hold := h.ok_once id'
    rw [hcount]
    split
    · next heq =>
      subst heq
      omega
    · omega
  · rw [hcount]
    rcases hacts with ⟨rfl, rfl⟩ | ⟨rfl, rfl⟩ | ⟨rfl, rfl⟩ <;> simp [List.count_cons]

theorem TxPoolInv.dataTx (h : TxPoolInv s) (id : Nat) (hskb : skb.ref = ⟨id, false⟩)
    (hnew : .ok id ∉ s.log)
    (hok : s.txSkbPool s.txSkbPoolIdx = none ∨ skb.headroom < neededHeadroom ∧ realloc = false) :
    TxPoolInv (dataTx neededHeadroom s skb realloc).2 := by
  unfold Mt7697wifi.dataTx
  split
  · rw [hskb]
    exact h.act _ (balanced_ok h hnew (.inr (.inr ⟨rfl, rfl⟩)))
  · next hcopy =>
    have hfree : s.txSkbPool s.txSkbPoolIdx = none := hok.resolve_right fun hfail =>
      hcopy ⟨hfail.1, by simp [hfail.2]⟩
    by_cases hroom : skb.headroom < neededHeadroom
    · simp only [hroom, if_true, TxState.act, hfree, List.append_assoc, hskb]
      exact h.fill hfree (balanced_ok h hnew (.inr (.inl ⟨rfl, rfl⟩)))
    · simp only [hroom, if_false, TxState.act, hfree, hskb]
      exact h.fill hfree (balanced_ok h hnew (.inl ⟨rfl, by rw [hskb]⟩))

end DataTx

section TxWork

/-- Sending writes packets to the log and nothing else. -/
theorem sendPacket_log (write : τ → List Word → Except Errno Nat × τ)
    (path : TxPath τ) (skb : Skb) : ∃ acts,
    (sendPacket write path skb).log = path.log ++ acts ∧ ∀ act ∈ acts,
      ∃ words, act = .written skb.ref.id words := by
  unfold sendPacket wrTxRawPacket
  dsimp only
  split
  · exact ⟨[], by simp, by simp⟩
  · split
    · exact ⟨[], by simp, by simp⟩
    · exact ⟨_, rfl, by simp⟩

theorem sendAll_log (write : τ → List Word → Except Errno Nat × τ)
    (path : TxPath τ) (skbs : List Skb) : ∃ acts,
    (skbs.foldl (sendPacket write) path).log = path.log ++ acts ∧ ∀ act ∈ acts,
      ∃ id words, act = .written id words := by
  induction skbs generalizing path with
  | nil => exact ⟨[], by simp, by simp⟩
  | cons skb skbs ih =>
    obtain ⟨acts, hlog, hacts⟩ := sendPacket_log write path skb
    obtain ⟨acts', hlog', hacts'⟩ := ih (sendPacket write path skb)
    refine ⟨acts ++ acts', ?_, fun act hact => ?_⟩
    · rw [List.foldl_cons, hlog', hlog, List.append_assoc]
    · rcases List.mem_append.mp hact with hact | hact
      · exact ⟨_, hacts act hact⟩
      · exact hacts' act hact

/-- The loop sends what the linked slots hold, and empties them. -/
theorem txLoop_eq {l : List Nat} (hlist : s.txSkbList = l) (hnodup : l.Nodup)
    (hpool : ∀ i ∈ l, s.txSkbPool i ≠ none) :
    txLoop write l s = some { s with
      path := (l.filterMap s.txSkbPool).foldl (sendPacket write) s.path
      txSkbList := []
      txSkbQueue := s.txSkbQueue ++ l.filterMap s.txSkbPool
      txSkbPool := fun i => if i ∈ l then none else s.txSkbPool i } := by
  induction l generalizing s with
  | nil =>
    obtain ⟨path, pool, idx, list, queue, pending⟩ := s
    obtain rfl : list = [] := hlist
    simp [txLoop]
  | cons i rest ih =>
    obtain ⟨hnot, hrest⟩ := List.nodup_cons.mp hnodup
    obtain ⟨skb, hskb⟩ := Option.ne_none_iff_exists'.mp (hpool i (.head _))
    have hother : ∀ j ∈ rest, Function.update s.txSkbPool i none j = s.txSkbPool j := fun j hj =>
      Function.update_of_ne (fun heq : j = i => hnot (heq ▸ hj)) _ _
    rw [txLoop, hskb]
    dsimp only
    have hrestPool : ∀ j ∈ rest, Function.update s.txSkbPool i none j ≠ none := fun j hj => by
      rw [hother j hj]
      exact hpool j (.tail _ hj)
    rw [ih (by simp [hlist]) hrest hrestPool]
    simp only [List.filterMap_congr hother, List.filterMap_cons, hskb, List.foldl_cons,
      List.append_assoc, List.cons_append, List.nil_append, Option.some.injEq]
    congr 1
    funext j
    by_cases hj : j ∈ rest
    · simp [hj]
    · by_cases hji : j = i
      · simp [hji]
      · simp [hj, hji]

/-- What a run of the work leaves. -/
theorem txWork_eq (hnodup : s.txSkbList.Nodup) (hpool : ∀ i ∈ s.txSkbList, s.txSkbPool i ≠ none)
    (hqueue : s.txSkbQueue = []) (hstep : txWork write s = some t) :
    ∃ acts, (∀ act ∈ acts, ∃ id words, act = .written id words) ∧
      (s.held.foldl (sendPacket write) s.path).log = s.log ++ acts ∧
      t = { s with
        path := { s.held.foldl (sendPacket write) s.path with
          log := s.log ++ acts ++ s.held.map fun skb => .freed skb.ref }
        txSkbList := []
        txSkbPool := fun i => if i ∈ s.txSkbList then none else s.txSkbPool i
        txWorkPending := false } := by
  unfold txWork at hstep
  split at hstep
  · rw [txLoop_eq (s := { s with txWorkPending := false }) rfl hnodup hpool] at hstep
    obtain ⟨acts, hlog, hacts⟩ := sendAll_log write s.path s.held
    refine ⟨acts, hacts, hlog, ?_⟩
    cases hstep
    simp only [purge, TxState.act, hqueue, List.nil_append]
    congr 2
    exact congrArg (· ++ _) hlog
  · contradiction

theorem TxPoolInv.txWork (h : TxPoolInv s) (hstep : txWork write s = some t) : TxPoolInv t := by
  obtain ⟨acts, hacts, -, rfl⟩ :=
    txWork_eq h.nodup (fun i hi => (h.linked_iff i).mpr hi) h.queue_nil hstep
  obtain ⟨head, hlist, hidx⟩ := h.inTurn
  have hcount : ∀ act, (∀ id words, act ≠ .written id words) → acts.count act = 0 := by
    intro act hne
    refine List.count_eq_zero.mpr fun hmem => ?_
    obtain ⟨id, words, rfl⟩ := hacts act hmem
    exact hne id words rfl
  -- besides the writes only the frees are new
  have hother : ∀ act, (∀ id words, act ≠ .written id words) → (∀ ref, act ≠ .freed ref) →
      (s.log ++ acts ++ s.held.map fun skb => TxAct.freed skb.ref).count act = s.log.count act := by
    intro act hwritten hfreed
    have hnone : (s.held.map fun skb => TxAct.freed skb.ref).count act = 0 := by
      refine List.count_eq_zero.mpr fun hmem => ?_
      obtain ⟨skb, -, rfl⟩ := List.mem_map.mp hmem
      exact hfreed _ rfl
    rw [List.count_append, List.count_append, hcount act hwritten, hnone, Nat.add_zero]
  refine ⟨fun i => ?_, ⟨s.txSkbPoolIdx, rfl, ?_⟩, Nat.zero_le _, h.queue_nil, fun ref => ?_,
    fun id => ?_, fun id => ?_⟩
  · by_cases hi : i ∈ s.txSkbList
    · simp [hi]
    · simpa [hi] using (h.linked_iff i).not.mpr hi
  · rw [hidx]
    exact (Nat.mod_mod _ _).symm
  · have hold := h.balance ref
    have hfreed := List.count_map_of_injective (s.held.map Skb.ref) TxAct.freed
      (fun _ _ heq => TxAct.freed.inj heq) ref
    rw [List.map_map] at hfreed
    have htaken := hother ref.taken (by unfold SkbRef.taken; split <;> simp)
      (by unfold SkbRef.taken; split <;> simp)
    have hzero := hcount (.freed ref) (by simp)
    refine Eq.trans ?_ htaken.symm
    change (s.log ++ acts ++ s.held.map (TxAct.freed ∘ Skb.ref)).count (.freed ref) + 0 = _
    simp only [List.count_append]
    omega
  · exact (hother (.ok id) (by simp) (by simp)).trans_le (h.ok_once id)
  · refine (hother (.copied id) (by simp) (by simp)).trans_le ((h.copied_ok id).trans_eq ?_)
    exact (hother (.ok id) (by simp) (by simp)).symm

end TxWork

section Runs

variable {env : τ → τ → Prop} {neededHeadroom : Nat} {link : τ} {txReq : TxReq}

/-- The next slot is free when a packet is handed in, unless no copy can be made of it, and no
packet is queued when the path is stopped. -/
def poolHealthy (neededHeadroom : Nat) (s : TxState τ) : TxEvent τ → Prop
  | .dataTx skb realloc => s.txSkbPool s.txSkbPoolIdx = none
      ∨ skb.headroom < neededHeadroom ∧ realloc = false
  | .txStop => s.txSkbList = []
  | _ => True

theorem txPoolInv_init (path : TxPath τ) (hlog : path.log = []) :
    TxPoolInv { path := path : TxState τ } := by
  have hlog' : TxState.log { path := path : TxState τ } = [] := hlog
  refine ⟨fun i => by simp, ⟨0, rfl, rfl⟩, Nat.zero_le _, rfl, fun ref => ?_, fun id => ?_,
    fun id => ?_⟩
  · simp [hlog', TxState.held]
  · simp [hlog']
  · simp [hlog']

theorem TxPoolInv.step (h : TxPoolInv s) {e : TxEvent τ} (hok : poolHealthy neededHeadroom s e)
    (hstep : (txMachine write env neededHeadroom link txReq).Step s e t) : TxPoolInv t := by
  cases e with
  | dataTx skb realloc =>
    obtain ⟨horig, hnew, rfl⟩ := hstep
    exact h.dataTx skb.ref.id (by rw [← horig]) hnew hok
  | txWork => exact h.txWork hstep
  | txStop =>
    have hnil : s.txSkbList = [] := hok
    change txStop s = some t at hstep
    simp only [txStop, hnil, List.not_mem_nil, false_imp_iff, implies_true, if_true,
      List.filterMap_nil, List.map_nil, Option.some.injEq] at hstep
    subst hstep
    have hact := h.act [] ⟨fun ref => by simp, fun id => by simpa using h.ok_once id,
      fun id => by simp⟩
    simpa [TxState.act, hnil] using hact
  | notifyTx headLen free =>
    obtain rfl : t = notifyTx s headLen free := hstep
    unfold notifyTx
    split
    · split
      · exact ⟨h.linked_iff, h.inTurn, h.length_le, h.queue_nil, h.balance, h.ok_once, h.copied_ok⟩
      · exact h
    · exact h
  | slave link' =>
    obtain ⟨-, rfl⟩ := hstep
    exact ⟨h.linked_iff, h.inTurn, h.length_le, h.queue_nil, h.balance, h.ok_once, h.copied_ok⟩

/-- While the pool never overflows and the path is only stopped when it is empty, slots and list
agree and each packet that was accepted is freed once. -/
theorem txPoolOk_of_healthy
    (h : (txMachine write env neededHeadroom link txReq).Reached (poolHealthy neededHeadroom) s) :
    TxPoolOk s := by
  refine (h.invariant TxPoolInv ?_ ?_).txPoolOk
  · rintro s rfl
    exact txPoolInv_init _ rfl
  · intro s e t hinv hok hstep
    exact hinv.step hok hstep

end Runs

section Stopped

/-- A link that takes what it is given. -/
def takeAll (link : Unit) (words : List Word) : Except Errno Nat × Unit := (.ok words.length, link)

def somePacket : Skb where
  ref := ⟨1, false⟩
  headroom := 32
  data := [1, 2, 3]

def emptyTxReq : TxReq := ⟨0, cmdGrp80211, cmdTxRaw, 0, []⟩

def onePacket : TxState Unit :=
  (dataTx 0 { path := { link := (), txReq := emptyTxReq } } somePacket true).2

/-- A second packet, which needs more headroom and is copied. -/
def tightPacket : Skb where
  ref := ⟨2, false⟩
  headroom := 0
  data := [4, 5]

def packetAndCopy : TxState Unit :=
  (dataTx 8 (dataTx 8 { path := { link := (), txReq := emptyTxReq } } somePacket true).2
    tightPacket true).2

/-- The work writes the packet and the copy, and frees them. -/
theorem txPoolOk_of_healthy_packetAndCopy : ∃ s : TxState Unit, s.txSkbList = [] ∧
    s.log.count (.freed ⟨1, false⟩) = 1 ∧ s.log.count (.freed ⟨2, true⟩) = 1 ∧ TxPoolOk s := by
  have hdone : (txWork takeAll packetAndCopy).any (fun s => decide (s.txSkbList = [] ∧
      s.log.count (.freed ⟨1, false⟩) = 1 ∧ s.log.count (.freed ⟨2, true⟩) = 1)) = true := by
    decide
  obtain ⟨s, hs, hp⟩ := (Option.any_eq_true _ _).mp hdone
  obtain ⟨hlist, hfirst, hsecond⟩ := of_decide_eq_true hp
  have hreach : (txMachine takeAll (fun _ _ => True) 8 () emptyTxReq).Reached (poolHealthy 8)
      s := by
    refine .step (s := packetAndCopy) (a := .txWork) ?_ trivial hs
    refine .step (a := .dataTx tightPacket true) ?_ (.inl rfl) ⟨rfl, by decide, rfl⟩
    exact .step (a := .dataTx somePacket true) (.init rfl) (.inl rfl) ⟨rfl, List.not_mem_nil, rfl⟩
  exact ⟨s, hlist, hfirst, hsecond, txPoolOk_of_healthy hreach⟩

/-- A stop unlinks the slot of a queued packet and leaves the packet in it. -/
theorem txPoolOk_fails : ∃ s,
    (txMachine takeAll (fun _ _ => True) 0 () emptyTxReq).Reached (fun _ _ => True) s
      ∧ txStop onePacket = some s ∧ ¬ TxPoolOk s := by
  refine ⟨_, .step (s := onePacket) (a := .txStop) ?_ trivial rfl, rfl, fun h => ?_⟩
  · exact .step (a := .dataTx somePacket true) (.init rfl) trivial ⟨rfl, List.not_mem_nil, rfl⟩
  · have := (h.linked_iff 0).mp (by intro hnone; cases hnone)
    contradiction

end Stopped

end MangOH.Mt7697wifi
