import MangOH.DataHub.BufferContent
import MangOH.DataHub.Doubles
import MangOH.Lib.Cursor

/-! The search for the first sample after a point in time, and what a client visits that asks again
and again with the last timestamp it was given. -/
namespace MangOH.DataHub

open Cursor

variable {P : Platform} {env : Environment} {o : Observation} {s s' : DataSample}
  {startAfter : Double}

/-- More than 30 years after the Epoch: not taken to be a time span that ends now. -/
def Double.IsAbsolute (d : Double) : Prop := Double.thirtyYears.lt d = true

instance (d : Double) : Decidable d.IsAbsolute :=
  inferInstanceAs (Decidable (Double.thirtyYears.lt d = true))

/-- The oldest sample in the buffer that is newer than a point in time. -/
def firstAfter (o : Observation) (startAfter : Double) : Option DataSample :=
  o.samples.find? fun s => startAfter.lt s.timestamp

/-- `StartRead` at an entry of the buffer, once the descriptor is in non-blocking mode. -/
def startRead (P : Platform) (ctx : ObsContext) (o : Observation) (id : Nat)
    (startPtr : Option BufferEntry) (script : List WriteResult) :
    Except Fault (Observation × List ObsEvent) := do
  let op : ReadOperation :=
    { id, nextEntryPtr := startPtr, state := .start, writeBuffer := [], writeOffset := 0,
      emitted := [], output := [] }
  let loaded ← loadReadOpBuffer P ctx.currentType (o.hold startPtr) op
  let o := { loaded.obs with readOpList := loaded.obs.readOpList ++ [loaded.op] }
  let c ← continueReadOp P ctx.currentType script o loaded.op
  pure (c.store id, loaded.events ++ c.events)

/-- `obs_FindBufferedSampleAfter` finds the oldest newer sample, and `obs_ReadBufferJson` starts
there. -/
structure FindsNewer (P : Platform) (env : Environment) (o : Observation) (startAfter : Double) :
    Prop where
  found : obsFindBufferedSampleAfter P env o startAfter = firstAfter o startAfter
  read : ∀ ctx id script, ctx.env = env →
    ∃ startPtr,
      obsReadBufferJson P ctx o id startAfter script = startRead P ctx o id startPtr script ∧
      startPtr.map (·.sampleRef) = firstAfter o startAfter

/-- The first sample that is not older than this time has just this timestamp, and the sample behind
it is not newer. -/
inductive StuckAt (startAfter : Double) (l : List DataSample) : Prop
  | mk (before : List DataSample) (s s' : DataSample) (after : List DataSample)
      (hl : l = before ++ s :: s' :: after)
      (hbefore : ∀ b ∈ before, startAfter.le b.timestamp = false)
      (hs : s.timestamp.eq startAfter = true) (hs' : startAfter.lt s'.timestamp = false)

/-- What `query_ReadBufferSampleTimestamp` finds. -/
def nextTimestamp (P : Platform) (o : Observation) (env : Environment) (startAfter : Double) :
    Option Double :=
  (obsFindBufferedSampleAfter P env o startAfter).map dataSampleGetTimestamp

/-- A client that asks for the next timestamp, once in each environment, with the last one it was
given, sees strictly increasing timestamps, visits every timestamp after its start, and is told in
the end that there are no more. -/
structure VisitsAll (P : Platform) (o : Observation) (start : Double) : Prop where
  increasing : ∀ envs,
    (start :: pages (nextTimestamp P o) id envs start).Pairwise fun a b => a.lt b = true
  complete : ∀ envs, o.samples.length ≤ envs.length →
    ∀ s ∈ o.samples, start.lt s.timestamp = true →
      s.timestamp ∈ pages (nextTimestamp P o) id envs start
  stops : ∀ envs, o.samples.length < envs.length →
    (pages (nextTimestamp P o) id envs start).length < envs.length

/-- The service answers with the timestamp that is found. -/
theorem answerQuery_timestamp {h : Hub} {x : Resource} (hpos : startAfter.lt .zero = false) :
    answerQuery P h x o (.timestamp startAfter) =
      .ok ((nextTimestamp P o h.env startAfter).map fun t => (t, none)) := by
  show readBufferSample P h x o startAfter (fun _ => pure none) none = _
  unfold readBufferSample nextTimestamp
  rw [if_neg (by simp [hpos]), if_neg (by simp)]
  cases obsFindBufferedSampleAfter P h.env o startAfter <;> rfl

theorem Double.IsAbsolute.notNaN {d : Double} (h : d.IsAbsolute) : d.isNaN = false :=
  (Double.lt_eq_true.mp h).2.1

theorem Double.IsAbsolute.le_false {d : Double} (h : d.IsAbsolute) :
    d.le .thirtyYears = false := by
  cases hle : d.le .thirtyYears with
  | false => rfl
  | true =>
    have h₁ := (Double.lt_eq_true.mp h).2.2
    have h₂ := (Double.le_eq_true.mp hle).2.2
    omega

/-! ### One search -/

/-- The search among the samples themselves. -/
def searchAfter (startAfter : Double) (l : List DataSample) : Option DataSample :=
  match l.dropWhile fun s => !startAfter.le s.timestamp with
  | [] => none
  | s :: rest => if s.timestamp.eq startAfter then rest.head? else some s

theorem find_eq_searchAfter (P : Platform) (env : Environment) (habs : startAfter.IsAbsolute) :
    (findAfter P env o startAfter).map (·.sampleRef) = searchAfter startAfter o.samples := by
  unfold findAfter findBufferEntry searchAfter Observation.samples
  rw [if_neg (by simp [habs.notNaN]), List.dropWhile_map]
  simp only [habs.le_false, Bool.false_eq_true, if_false, Function.comp_def]
  cases o.sampleList.dropWhile fun e => !startAfter.le e.sampleRef.timestamp with
  | nil => rfl
  | cons e rest =>
    simp only [List.map_cons, List.head?_map]
    split <;> rfl

theorem stuckAt_cons {l : List DataSample} (h : startAfter.le s.timestamp = false) :
    StuckAt startAfter (s :: l) ↔ StuckAt startAfter l := by
  constructor
  · rintro ⟨before, a, b, after, hl, hbefore, ha, hb⟩
    cases before with
    | nil =>
      cases hl
      obtain ⟨h₁, h₂, h₃⟩ := Double.eq_eq_true.mp ha
      have := Double.le_eq_true.mpr ⟨h₂, h₁, Int.le_of_eq h₃.symm⟩
      rw [h] at this
      cases this
    | cons c before =>
      cases hl
      exact ⟨before, a, b, after, rfl, fun b hb => hbefore b (List.mem_cons_of_mem _ hb), ha, hb⟩
  · rintro ⟨before, a, b, after, rfl, hbefore, ha, hb⟩
    refine ⟨s :: before, a, b, after, rfl, fun c hc => ?_, ha, hb⟩
    rcases List.mem_cons.mp hc with rfl | hc
    · exact h
    · exact hbefore c hc

theorem stuckAt_head {l : List DataSample} (h : startAfter.le s.timestamp = true) :
    StuckAt startAfter (s :: l) ↔ s.timestamp.eq startAfter = true ∧
      ∃ s' rest, l = s' :: rest ∧ startAfter.lt s'.timestamp = false := by
  constructor
  · rintro ⟨before, a, b, after, hl, hbefore, ha, hb⟩
    cases before with
    | nil =>
      cases hl
      exact ⟨ha, b, after, rfl, hb⟩
    | cons c before =>
      cases hl
      have := hbefore s (List.mem_cons_self ..)
      rw [h] at this
      cases this
  · rintro ⟨hs, s', rest, rfl, hs'⟩
    exact ⟨[], s, s', rest, rfl, by simp, hs, hs'⟩

/-- The search skips one sample at most, so it finds the first newer one unless there are several
with the start's timestamp. -/
theorem searchAfter_eq_iff (l : List DataSample) :
    searchAfter startAfter l = l.find? (fun s => startAfter.lt s.timestamp) ↔
      ¬ StuckAt startAfter l := by
  induction l with
  | nil =>
    refine iff_of_true rfl ?_
    rintro ⟨before, a, b, after, hl, _⟩
    cases before <;> cases hl
  | cons s l ih =>
    cases hle : startAfter.le s.timestamp with
    | false =>
      rw [stuckAt_cons hle, ← ih]
      simp [searchAfter, hle, Double.lt_false_of_le_false hle]
    | true =>
      rw [stuckAt_head hle]
      cases heq : s.timestamp.eq startAfter with
      | false =>
        have hlt := Double.lt_of_le_of_ne hle heq
        simp [searchAfter, hle, hlt, heq]
      | true =>
        have hlt := Double.lt_false_of_eq heq
        simp only [searchAfter, List.dropWhile_cons, List.find?_cons, hle, hlt, heq, Bool.not_true,
          Bool.false_eq_true, if_false, if_true, true_and]
        cases l with
        | nil => simp
        | cons s' rest =>
          cases hs' : startAfter.lt s'.timestamp with
          | true => simp [hs']
          | false =>
            refine iff_of_false (fun hfind => ?_) (fun hno => hno ⟨s', rest, rfl, hs'⟩)
            have hnew := List.find?_some hfind.symm
            simp [hs'] at hnew

theorem findsNewer_iff (habs : startAfter.IsAbsolute) :
    FindsNewer P env o startAfter ↔ ¬ StuckAt startAfter o.samples := by
  rw [← searchAfter_eq_iff, ← find_eq_searchAfter P env habs]
  refine ⟨fun h => h.found, fun h => ⟨h, fun ctx id script henv => ?_⟩⟩
  subst henv
  exact ⟨findAfter P ctx.env o startAfter, rfl, h⟩

/-! ### Search after search -/

/-- Neither the first search nor one that starts at a newer sample gets stuck. -/
def NeverStuck (o : Observation) (start : Double) : Prop :=
  ¬ StuckAt start o.samples ∧
    ∀ s ∈ o.samples, start.lt s.timestamp = true → ¬ StuckAt s.timestamp o.samples

/-- The samples from the first newer one on. -/
def newerOn (o : Observation) (start : Double) : List DataSample :=
  o.samples.dropWhile fun s => !start.lt s.timestamp

theorem Double.IsAbsolute.of_lt {a b : Double} (ha : a.IsAbsolute) (h : a.lt b = true) :
    b.IsAbsolute := Double.lt_trans _ _ _ ha h

/-- Behind a newer sample each search goes one sample on. -/
theorem chain_of_neverStuck {before rest : List DataSample} (hl : o.samples = before ++ s :: rest)
    (hnever : NeverStuck o startAfter) (hs : startAfter.lt s.timestamp = true)
    (hbefore : ∀ b ∈ before, s.timestamp.le b.timestamp = false) :
    (s :: rest).IsChain fun a b => a.timestamp.lt b.timestamp = true := by
  induction rest generalizing before s with
  | nil => exact .singleton s
  | cons s' rest ih =>
    have hnum := (Double.lt_eq_true.mp hs).2.1
    have hlt : s.timestamp.lt s'.timestamp = true := by
      cases hlt : s.timestamp.lt s'.timestamp with
      | true => rfl
      | false =>
        refine absurd ?_ (hnever.2 s (by simp [hl]) hs)
        exact ⟨before, s, s', rest, hl, hbefore, Double.eq_refl hnum, hlt⟩
    have hl' : o.samples = (before ++ [s]) ++ s' :: rest := by simp [hl]
    refine List.isChain_cons_cons.mpr ⟨hlt, ih hl' (Double.lt_trans _ _ _ hs hlt) fun b hb => ?_⟩
    rcases List.mem_append.mp hb with hb | hb
    · exact Double.le_false_of_lt hlt (hbefore b hb)
    · cases List.mem_singleton.mp hb
      exact Double.not_le_of_lt hlt

theorem ascending_newerOn (hnever : NeverStuck o startAfter) :
    (newerOn o startAfter).Pairwise fun a b => a.timestamp.lt b.timestamp = true := by
  have hl := List.takeWhile_append_dropWhile (p := fun s => !startAfter.lt s.timestamp)
    (l := o.samples)
  unfold newerOn
  cases hdrop : o.samples.dropWhile fun s => !startAfter.lt s.timestamp with
  | nil => exact .nil
  | cons s rest =>
    rw [hdrop] at hl
    have hs : startAfter.lt s.timestamp = true := by
      have := List.head?_dropWhile_not (fun s => !startAfter.lt s.timestamp) o.samples
      rw [hdrop] at this
      simpa using this
    have : IsTrans DataSample fun a b => a.timestamp.lt b.timestamp = true :=
      ⟨fun _ _ _ => Double.lt_trans _ _ _⟩
    refine (chain_of_neverStuck hl.symm hnever hs fun b hb => ?_).pairwise
    have hb := List.mem_takeWhile_imp hb
    exact Double.le_false_of_not_lt hs (by simpa using hb)

theorem find_newerOn {t : Double} (ht : startAfter = t ∨ startAfter.lt t = true) :
    o.samples.find? (fun s => t.lt s.timestamp) =
      (newerOn o startAfter).find? fun s => t.lt s.timestamp := by
  have hl := List.takeWhile_append_dropWhile (p := fun s => !startAfter.lt s.timestamp)
    (l := o.samples)
  unfold newerOn
  conv_lhs => rw [← hl]
  refine List.find?_append.trans ?_
  have hnone : (o.samples.takeWhile fun s => !startAfter.lt s.timestamp).find?
      (fun s => t.lt s.timestamp) = none := by
    refine List.find?_eq_none.mpr fun b hb hlt => ?_
    have hb := List.mem_takeWhile_imp hb
    rcases ht with rfl | ht
    · simp [hlt] at hb
    · simp [Double.lt_trans _ _ _ ht hlt] at hb
  rw [hnone, Option.none_or]

theorem nextTimestamp_eq {t : Double} (hnever : NeverStuck o startAfter)
    (habs : startAfter.IsAbsolute)
    (ht : startAfter = t ∨ ∃ s ∈ o.samples, t = s.timestamp ∧ startAfter.lt t = true)
    (env : Environment) : nextTimestamp P o env t =
      ((newerOn o startAfter).map (·.timestamp)).find? fun t' => t.lt t' := by
  obtain ⟨habs', hstuck, hafter⟩ : t.IsAbsolute ∧ ¬ StuckAt t o.samples ∧
      (startAfter = t ∨ startAfter.lt t = true) := by
    rcases ht with rfl | ⟨s, hs, rfl, hlt⟩
    · exact ⟨habs, hnever.1, .inl rfl⟩
    · exact ⟨habs.of_lt hlt, hnever.2 s hs hlt, .inr hlt⟩
  unfold nextTimestamp
  rw [((findsNewer_iff habs').mpr hstuck).found, List.find?_map]
  unfold firstAfter
  rw [find_newerOn hafter]
  rfl

theorem mem_newerOn (hs : s ∈ o.samples) (hlt : startAfter.lt s.timestamp = true) :
    s ∈ newerOn o startAfter := by
  rw [← List.takeWhile_append_dropWhile (p := fun s => !startAfter.lt s.timestamp)
    (l := o.samples)] at hs
  rcases List.mem_append.mp hs with hs | hs
  · have := List.mem_takeWhile_imp hs
    simp [hlt] at this
  · exact hs

theorem lt_of_mem_newerOn (hnever : NeverStuck o startAfter) (hs : s ∈ newerOn o startAfter) :
    startAfter.lt s.timestamp = true := by
  have hasc := ascending_newerOn hnever
  have hhead := List.head?_dropWhile_not (fun s => !startAfter.lt s.timestamp) o.samples
  unfold newerOn at hs hasc
  cases hdrop : o.samples.dropWhile fun s => !startAfter.lt s.timestamp with
  | nil =>
    rw [hdrop] at hs
    cases hs
  | cons a rest =>
    rw [hdrop] at hs hasc hhead
    have ha : startAfter.lt a.timestamp = true := by simpa using hhead
    rcases List.mem_cons.mp hs with rfl | hs
    · exact ha
    · exact Double.lt_trans _ _ _ ha (List.rel_of_pairwise_cons hasc hs)

theorem pages_nextTimestamp (habs : startAfter.IsAbsolute) (hnever : NeverStuck o startAfter)
    (envs : List Environment) : pages (nextTimestamp P o) id envs startAfter =
      ((newerOn o startAfter).map (·.timestamp)).take envs.length := by
  have hasc : Ascending Double.lt id ((newerOn o startAfter).map (·.timestamp)) :=
    List.pairwise_map.mpr (ascending_newerOn hnever)
  have hsearch : ∀ env : Environment, ∀ t ∈ (newerOn o startAfter).map (·.timestamp),
      nextTimestamp P o env (id t) =
        ((newerOn o startAfter).map (·.timestamp)).find? fun t' => Double.lt (id t) (id t') := by
    intro env t ht
    obtain ⟨s, hs, rfl⟩ := List.mem_map.mp ht
    have hmem := (List.dropWhile_sublist _).subset hs
    exact nextTimestamp_eq hnever habs (.inr ⟨s, hmem, rfl, lt_of_mem_newerOn hnever hs⟩) env
  rw [pages_eq Double.lt_trans Double.lt_asymm hasc hsearch
    (nextTimestamp_eq hnever habs (.inl rfl)) envs]
  congr 1
  refine List.filter_eq_self.mpr fun t ht => ?_
  obtain ⟨s, hs, rfl⟩ := List.mem_map.mp ht
  exact lt_of_mem_newerOn hnever hs

theorem visitsAll_of_neverStuck (habs : startAfter.IsAbsolute) (hnever : NeverStuck o startAfter) :
    VisitsAll P o startAfter := by
  have hpages := pages_nextTimestamp (P := P) habs hnever
  have hlen : (newerOn o startAfter).length ≤ o.samples.length :=
    (List.dropWhile_sublist _).length_le
  refine ⟨fun envs => ?_, fun envs henvs s hs hafter => ?_, fun envs henvs => ?_⟩
  · rw [hpages]
    refine List.pairwise_cons.mpr ⟨fun t ht => ?_, ?_⟩
    · obtain ⟨s, hs, rfl⟩ := List.mem_map.mp (List.mem_of_mem_take ht)
      exact lt_of_mem_newerOn hnever hs
    · exact (List.pairwise_map.mpr (ascending_newerOn hnever)).sublist (List.take_sublist _ _)
  · rw [hpages, List.take_of_length_le (by rw [List.length_map]; omega)]
    exact List.mem_map_of_mem (mem_newerOn hs hafter)
  · rw [hpages, List.length_take, List.length_map]
    omega

/-- A search that is stuck finds a sample that is not newer. -/
theorem nextTimestamp_of_stuck (habs : startAfter.IsAbsolute)
    (hstuck : StuckAt startAfter o.samples) :
    ∃ t, startAfter.lt t = false ∧ ∀ env, nextTimestamp P o env startAfter = some t := by
  obtain ⟨before, s, s', after, hl, hbefore, hs, hs'⟩ := hstuck
  refine ⟨s'.timestamp, hs', fun env => ?_⟩
  unfold nextTimestamp obsFindBufferedSampleAfter
  rw [find_eq_searchAfter _ _ habs]
  have hle : startAfter.le s.timestamp = true := by
    obtain ⟨h₁, h₂, h₃⟩ := Double.eq_eq_true.mp hs
    exact Double.le_eq_true.mpr ⟨h₂, h₁, Int.le_of_eq h₃.symm⟩
  have hfound : searchAfter startAfter o.samples = some s' := by
    unfold searchAfter
    rw [hl, List.dropWhile_append_of_pos fun b hb => by simp [hbefore b hb]]
    simp [hle, hs]
  rw [hfound]
  rfl

theorem neverStuck_of_visitsAll (habs : startAfter.IsAbsolute)
    (hvisits : VisitsAll P o startAfter) :
    NeverStuck o startAfter := by
  let env : Environment := ⟨.zero, 0, 0, false⟩
  refine ⟨fun hstuck => ?_, fun s hs hlt hstuck => ?_⟩
  · obtain ⟨t, ht, hnext⟩ := nextTimestamp_of_stuck (P := P) habs hstuck
    have hinc : startAfter.lt t = true :=
      List.rel_of_pairwise_cons (hvisits.increasing [env]) (by simp [pages, hnext])
    rw [ht] at hinc
    cases hinc
  · obtain ⟨t, ht, hnext⟩ := nextTimestamp_of_stuck (P := P) (habs.of_lt hlt) hstuck
    let envs := List.replicate o.samples.length env
    have hmem := hvisits.complete envs (by simp [envs]) s hs hlt
    obtain ⟨before, after, hpages⟩ := pages_append_of_mem (e := env) hmem hnext
    have hinc := (List.pairwise_cons.mp (hvisits.increasing (envs ++ [env]))).2
    rw [hpages] at hinc
    have hst := List.rel_of_pairwise_cons (List.pairwise_append.mp hinc).2.1
      (List.mem_cons_self ..)
    rw [ht] at hst
    cases hst

/-! ### Samples that have the same timestamp -/

/-- No two samples of the buffer have the same timestamp. -/
def DistinctTimestamps (o : Observation) : Prop :=
  o.samples.Pairwise fun a b => a.timestamp.eq b.timestamp = false

theorem le_trans_timestamp (a b c : DataSample) (h : a.timestamp.le b.timestamp = true)
    (h' : b.timestamp.le c.timestamp = true) : a.timestamp.le c.timestamp = true := by
  obtain ⟨ha, _, hab⟩ := Double.le_eq_true.mp h
  obtain ⟨_, hc, hbc⟩ := Double.le_eq_true.mp h'
  exact Double.le_eq_true.mpr ⟨ha, hc, Int.le_trans hab hbc⟩

/-- The samples of a buffer are in the order of their timestamps, if these are numbers. -/
theorem ordered_of_bufferOk (hb : o.BufferOk)
    (hnum : ∀ s ∈ o.samples, s.timestamp.isNaN = false) :
    o.samples.Pairwise fun a b => a.timestamp.le b.timestamp = true := by
  have hchain : o.samples.IsChain fun a b => a.timestamp.le b.timestamp = true := by
    refine List.IsChain.imp_of_mem_imp ?_ hb.inOrder
    exact fun a b ha hb hold => le_of_not_older (hnum a ha) (hnum b hb) hold
  have : IsTrans DataSample fun a b => a.timestamp.le b.timestamp = true :=
    ⟨le_trans_timestamp⟩
  exact hchain.pairwise

theorem notStuck_of_distinct
    (hord : o.samples.Pairwise fun a b => a.timestamp.le b.timestamp = true)
    (hdist : DistinctTimestamps o) : ¬ StuckAt startAfter o.samples := by
  rintro ⟨before, s, s', after, hl, _, hs, hs'⟩
  rw [DistinctTimestamps, hl] at hdist
  rw [hl] at hord
  have hle := List.rel_of_pairwise_cons (List.pairwise_append.mp hord).2.1 (List.mem_cons_self ..)
  have hne := List.rel_of_pairwise_cons (List.pairwise_append.mp hdist).2.1 (List.mem_cons_self ..)
  obtain ⟨hn, hn', hkey⟩ := Double.le_eq_true.mp hle
  obtain ⟨_, hstart, heq⟩ := Double.eq_eq_true.mp hs
  have hge := (Double.not_lt_iff hstart hn').mp hs'
  rw [Double.eq_eq_true.mpr ⟨hn, hn', by omega⟩] at hne
  cases hne

/-- Among samples in order two that have the same timestamp stop a search that starts there. -/
theorem stuck_of_equal {l : List DataSample}
    (hord : l.Pairwise fun a b => a.timestamp.le b.timestamp = true)
    (hnot : ¬ l.Pairwise fun a b => a.timestamp.eq b.timestamp = false) :
    ∃ s ∈ l, StuckAt s.timestamp l := by
  induction l with
  | nil => exact absurd List.Pairwise.nil hnot
  | cons a l ih =>
    obtain ⟨ha, hord'⟩ := List.pairwise_cons.mp hord
    by_cases hall : ∀ b ∈ l, a.timestamp.eq b.timestamp = false
    · have hnot' : ¬ l.Pairwise fun a b => a.timestamp.eq b.timestamp = false := fun hl =>
        hnot (List.pairwise_cons.mpr ⟨hall, hl⟩)
      obtain ⟨s, hs, hstuck⟩ := ih hord' hnot'
      refine ⟨s, List.mem_cons_of_mem _ hs, (stuckAt_cons ?_).mpr hstuck⟩
      obtain ⟨hna, hns, hkey⟩ := Double.le_eq_true.mp (ha s hs)
      cases hle : s.timestamp.le a.timestamp with
      | false => rfl
      | true =>
        have hkey' := (Double.le_eq_true.mp hle).2.2
        have heq := Double.eq_eq_true.mpr ⟨hna, hns, Int.le_antisymm hkey hkey'⟩
        rw [hall s hs] at heq
        cases heq
    · push Not at hall
      obtain ⟨b, hb, heq⟩ := hall
      obtain ⟨c, rest, rfl⟩ := List.exists_cons_of_ne_nil (List.ne_nil_of_mem hb)
      have heq' : a.timestamp.eq b.timestamp = true := by simpa using heq
      obtain ⟨hna, hnb, hkey⟩ := Double.eq_eq_true.mp heq'
      refine ⟨a, List.mem_cons_self .., [], a, c, rest, rfl, by simp, Double.eq_refl hna, ?_⟩
      have hcb : c.timestamp.key ≤ b.timestamp.key := by
        rcases List.mem_cons.mp hb with rfl | hb
        · exact Int.le_refl _
        · exact (Double.le_eq_true.mp (List.rel_of_pairwise_cons hord' hb)).2.2
      obtain ⟨_, hnc, _⟩ := Double.le_eq_true.mp (ha c (List.mem_cons_self ..))
      exact (Double.not_lt_iff hna hnc).mpr (hkey ▸ hcb)

theorem neverStuck_iff_distinct (hb : o.BufferOk) (habs : ∀ s ∈ o.samples, s.timestamp.IsAbsolute) :
    (∀ start : Double, start.IsAbsolute → NeverStuck o start) ↔ DistinctTimestamps o := by
  have hord := ordered_of_bufferOk hb fun s hs => (habs s hs).notNaN
  constructor
  · intro hnever
    by_contra hnot
    obtain ⟨s, hs, hstuck⟩ := stuck_of_equal hord hnot
    exact (hnever s.timestamp (habs s hs)).1 hstuck
  · exact fun hdist start _ => ⟨notStuck_of_distinct hord hdist, fun _ _ _ =>
      notStuck_of_distinct hord hdist⟩

/-- A search finds the oldest newer sample, and a read starts there, unless the first sample at the
start's own timestamp is followed by one that is not newer; and a client that searches on and on
visits all newer timestamps unless one of its searches comes upon such a pair. Where all timestamps
are absolute this says that no two samples have the same one. -/
theorem reads_after_iff (P : Platform) (o : Observation) :
    (∀ startAfter : Double, startAfter.IsAbsolute →
      (∀ env, FindsNewer P env o startAfter ↔ ¬ StuckAt startAfter o.samples) ∧
      (VisitsAll P o startAfter ↔ NeverStuck o startAfter)) ∧
    ∀ h r x, Reachable P h → h.resources r = some x → x.cls = .observation o →
      (∀ s ∈ o.samples, s.timestamp.IsAbsolute) →
      ((∀ start : Double, start.IsAbsolute → NeverStuck o start) ↔ DistinctTimestamps o) := by
  refine ⟨fun startAfter habs => ⟨fun env => findsNewer_iff habs, fun hvisits => ?_, fun hnever =>
    ?_⟩, fun h r x hr hx ho habs => ?_⟩
  · exact neverStuck_of_visitsAll habs hvisits
  · exact visitsAll_of_neverStuck habs hnever
  · obtain ⟨log, hlog, _⟩ := observation_reachable (fun _ => True) hr (fun _ _ _ => trivial) hx ho
    exact neverStuck_iff_distinct hlog.bufferOk habs

/-- Two samples pushed at the same time, in 2001. -/
def sameStampRun : List Op :=
  [.adminCreateObs (ascii "o"),
   .adminSetBufferMaxCount (ascii "o") 2,
   .adminPush (ascii "/obs/o") (double 1000000000) (.numeric (double 30)),
   .adminPush (ascii "/obs/o") (double 1000000000) (.numeric (double 40))]

/-- The two are in the buffer. -/
theorem exists_sameStamp : ∃ h x o, Reachable smallPlatform h ∧ h.resources 0 = some x ∧
    x.cls = .observation o ∧
    o.samples.map (·.timestamp) = [double 1000000000, double 1000000000] := by
  have hrun : smallRunEnds sameStampRun (fun h => (h.observation 0).any fun o =>
      o.samples.map (·.timestamp) = [double 1000000000, double 1000000000]) = true := by
    decide +kernel
  obtain ⟨h, hr, hp⟩ := exists_of_smallRunEnds hrun
  obtain ⟨o, ho, hp⟩ := (Option.any_eq_true _ _).mp hp
  obtain ⟨x, hx, hcls⟩ := observation_eq_some ho
  exact ⟨h, x, o, hr, hx, hcls, of_decide_eq_true hp⟩

theorem mem_of_stamps {t : Double} (hl : o.samples.map (·.timestamp) = [t, t]) :
    ∀ s ∈ o.samples, s.timestamp = t := by
  intro s hs
  have := List.mem_map_of_mem (f := (·.timestamp)) hs
  simpa [hl] using this

theorem stuckAt_of_stamps {t : Double} (hl : o.samples.map (·.timestamp) = [t, t])
    (hnum : t.isNaN = false) : StuckAt t o.samples := by
  obtain ⟨s, l, hs, hst, hl'⟩ := List.map_eq_cons_iff.mp hl
  obtain ⟨s', l', rfl, hst', _⟩ := List.map_eq_cons_iff.mp hl'
  refine ⟨[], s, s', l', hs, by simp, ?_, ?_⟩
  · rw [hst]
    exact Double.eq_refl hnum
  · rw [hst']
    exact Double.lt_false_of_eq (Double.eq_refl hnum)

theorem reads_after_iff_sameStampRun : ∃ h x o, Reachable smallPlatform h ∧
    h.resources 0 = some x ∧ x.cls = .observation o ∧
    FindsNewer smallPlatform smallEnvironment o (double 999999999) ∧
    ¬ ∀ start : Double, start.IsAbsolute → NeverStuck o start := by
  obtain ⟨h, x, o, hr, hx, hcls, hstamps⟩ := exists_sameStamp
  have hmem := mem_of_stamps hstamps
  obtain ⟨hstarts, hdistinct⟩ := reads_after_iff smallPlatform o
  have habs : ∀ s ∈ o.samples, s.timestamp.IsAbsolute := fun s hs => by
    rw [hmem s hs]
    decide
  refine ⟨h, x, o, hr, hx, hcls, ((hstarts (double 999999999) (by decide)).1 _).mpr ?_,
    fun hnever => ?_⟩
  · rintro ⟨before, s, s', after, hl, _, hs, _⟩
    rw [hmem s (by simp [hl])] at hs
    exact absurd hs (by decide)
  · have hdist : (o.samples.map (·.timestamp)).Pairwise fun a b => a.eq b = false :=
      List.pairwise_map.mpr ((hdistinct h 0 x hr hx hcls habs).mp hnever)
    rw [hstamps] at hdist
    exact absurd hdist (by decide)

/-- A client that has been given the time of the two is given it again. -/
theorem reads_after_repeat : ∃ h x o start, Reachable smallPlatform h ∧
    h.resources 0 = some x ∧ x.cls = .observation o ∧
    (∀ s ∈ o.samples, s.timestamp.IsAbsolute) ∧ start.IsAbsolute ∧
    ¬ FindsNewer smallPlatform smallEnvironment o start ∧ ¬ VisitsAll smallPlatform o start := by
  obtain ⟨h, x, o, hr, hx, hcls, hstamps⟩ := exists_sameStamp
  have hmem := mem_of_stamps hstamps
  have hstuck : StuckAt (double 1000000000) o.samples := stuckAt_of_stamps hstamps (by decide)
  have habs : (double 1000000000).IsAbsolute := by decide
  refine ⟨h, x, o, double 1000000000, hr, hx, hcls, fun s hs => ?_, habs, ?_, fun hvisits => ?_⟩
  · rw [hmem s hs]
    exact habs
  · rw [findsNewer_iff habs]
    exact not_not_intro hstuck
  · exact (neverStuck_of_visitsAll habs hvisits).1 hstuck

end MangOH.DataHub
