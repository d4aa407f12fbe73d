import MangOH.Json.Locality
import MangOH.Json.Parts

/-! Extracting with two specifiers one after another is extracting with both at once. -/
namespace MangOH.Json

open JsonGrammar
open DataHub (JsonType)

variable {s s' s₁ r r' u v w name spec rest more : Bytes} {k : Bracket} {sym : Symbol} {t : Tree}
  {items : List (Bytes × Tree)} {longBits size n m i : Nat} {go : Bytes → Except Failure Bytes}

/-! ### Elements and members in any surroundings -/

theorem skip_of_derives (h : Derives relaxed .value s r [([], t)]) : skip s = some r :=
  scans_of_derives h s.length (Nat.le_refl _)

theorem skipComma_gap (h : Spaces relaxed s s₁) (h₁ : Derives relaxed sym s₁ r items) :
    skipComma s = .error .formatError := by
  obtain ⟨c, w, rfl, hc⟩ := starts_of_derives h₁
  unfold skipComma
  rw [skipWhitespace_eq h (noSpace_cons hc.noSpace)]
  simp only [if_neg hc.noComma]

/-- These are the elements or members, whatever follows them. -/
def Encloses (k : Bracket) (u : Bytes) (items : List (Bytes × Tree)) : Prop :=
  ∀ r, Derives relaxed (.items k) (u ++ r) r items

theorem encloses_of_derives (h : Derives relaxed (.items k) s r items) :
    ∃ u, s = u ++ r ∧ Encloses k u items := by
  obtain ⟨u, -, hs, hmoved⟩ := h.movable relaxed_local
  exact ⟨u, hs, fun r' => hmoved r' fun hopen => hopen.elim⟩

/-- What `SkipComma` does behind an element or member: it gets to others, or it fails. -/
def Continues (k : Bracket) (v : Bytes) : Prop :=
  (∀ r, skipComma (v ++ r) = .error .formatError) ∨
    ∃ u rest, u.length < v.length ∧ Encloses k u rest ∧ ∀ r, skipComma (v ++ r) = .ok (u ++ r)

/-- The first element or member, and what is behind it. -/
theorem Encloses.first (h : Encloses k u items) : ∃ w v item, u = w ++ v ∧ v ≠ [] ∧
    (∀ y, v.head? = y.head? → Derives relaxed (.item k) (w ++ y) y item) ∧ Continues k v := by
  have hnil := h []
  rw [List.append_nil] at hnil
  cases hnil with
  | last _ hi hspaces =>
    obtain ⟨w, -, rfl, hitem⟩ := hi.movable relaxed_local
    obtain ⟨v, rfl, hv⟩ := hspaces.movable
    refine ⟨w, v ++ [k.closing], _, rfl, by simp, fun y hhead => hitem y fun _ _ => hhead, ?_⟩
    refine .inl fun r => ?_
    rw [List.append_assoc]
    exact skipComma_closing (hv (k.closing :: r))
  | more _ hi hsep hrest =>
    obtain ⟨w, -, rfl, hitem⟩ := hi.movable relaxed_local
    obtain ⟨u', hu', hencloses⟩ := encloses_of_derives hrest
    rw [List.append_nil] at hu'
    subst hu'
    obtain ⟨c, u'', hu', -⟩ := starts_of_derives hrest
    cases hsep with
    | comma hspaces hspaces₁ =>
      obtain ⟨a, rfl, ha⟩ := hspaces.movable
      obtain ⟨b, rfl, hb⟩ := hspaces₁.movable
      refine ⟨w, _, _, rfl, by simp, fun y hhead => hitem y fun _ _ => hhead,
        .inr ⟨_, _, ?_, hencloses, fun r => ?_⟩⟩
      · simp only [List.length_append, List.length_cons]
        omega
      · simp only [List.append_assoc, List.cons_append]
        exact skipComma_comma (ha _) (hb _) (noSpace_of_derives (hencloses r))
    | gap _ hspaces =>
      obtain ⟨a, rfl, ha⟩ := hspaces.movable
      refine ⟨w, _, _, rfl, by simp [hu'], fun y hhead => hitem y fun _ _ => hhead,
        .inl fun r => ?_⟩
      rw [List.append_assoc]
      exact skipComma_gap (ha _) (hencloses r)

theorem head_append (hne : v ≠ []) (r : Bytes) : v.head? = (v ++ r).head? := by
  cases v with
  | nil => exact absurd rfl hne
  | cons c v => rfl

/-! ### Two texts with the same value -/

/-- Two texts start with the same value, or with the end of an array. -/
inductive SamePlace : Bytes → Bytes → Prop
  | value {s s' r r' : Bytes} {t : Tree} (h : Derives relaxed .value s r [([], t)])
      (h' : Derives relaxed .value s' r' [([], t)]) : SamePlace s s'
  | closing (r r' : Bytes) : SamePlace (Bracket.array.closing :: r) (Bracket.array.closing :: r')

/-- Two searches fail alike, or come to the same place. -/
inductive Agree : Except Failure Bytes → Except Failure Bytes → Prop
  | fail (e : Failure) : Agree (.error e) (.error e)
  | there {s s' : Bytes} (h : SamePlace s s') : Agree (.ok s) (.ok s')

theorem Agree.bind {x x' : Except Failure Bytes} {f f' : Bytes → Except Failure Bytes}
    (h : Agree x x') (hf : ∀ s s', SamePlace s s' → Agree (f s) (f' s')) :
    Agree (x >>= f) (x' >>= f') := by
  cases h with
  | fail e => exact .fail e
  | there h => exact hf _ _ h

theorem skipElements_agree (h : Encloses .array u items) (r r' : Bytes) :
    Agree (skipElements i (u ++ r)) (skipElements i (u ++ r')) := by
  induction i generalizing u items with
  | zero =>
    obtain ⟨w, v, item, rfl, hv, hitem, -⟩ := h.first
    rw [List.append_assoc, List.append_assoc]
    have hvalue := hitem (v ++ r) (head_append hv r)
    have hvalue' := hitem (v ++ r') (head_append hv r')
    cases hvalue with
    | element hvalue =>
      cases hvalue' with
      | element hvalue' => exact .there (.value hvalue hvalue')
  | succ i ih =>
    obtain ⟨w, v, item, rfl, hv, hitem, hcontinues⟩ := h.first
    have hround : ∀ r, skipElements (i + 1) (w ++ v ++ r) =
        skipComma (v ++ r) >>= skipElements i := by
      intro r
      have hvalue := hitem (v ++ r) (head_append hv r)
      rw [List.append_assoc]
      cases hvalue with
      | element hvalue =>
        obtain ⟨c, rest, hs, hc⟩ := starts_of_derives hvalue
        have hhead : (w ++ (v ++ r)).head? ≠ some Bracket.array.closing := by
          rw [hs]
          simpa using hc.noClosing .array
        rw [skipElements, if_neg hhead, skip_of_derives hvalue]
    rw [hround, hround]
    rcases hcontinues with hfail | ⟨u, rest, -, hencloses, hok⟩
    · rw [hfail, hfail]
      exact .fail _
    · rw [hok, hok]
      exact ih hencloses

/-- The pieces of a member, and its value. -/
theorem member_cases (h : Derives relaxed (.item .object) s r items) : ∃ name a b c t,
    s = quote :: (name ++ quote :: (a ++ colon :: (b ++ (c ++ r)))) ∧ Skippable name ∧
      (∀ y, Spaces relaxed (a ++ y) y) ∧ (∀ y, Spaces relaxed (b ++ y) y) ∧
      ∀ y, r.head? = y.head? → Derives relaxed .value (c ++ y) y [([], t)] := by
  cases h with
  | member hw hs h₁ h₂ hv =>
    obtain ⟨a, rfl, ha⟩ := h₁.movable
    obtain ⟨b, rfl, hb⟩ := h₂.movable
    obtain ⟨c, -, rfl, hc⟩ := value_movable hv
    exact ⟨_, a, b, c, _, hs, hw, ha, hb, fun y hhead => hc y fun _ => hhead⟩

/-- One round of the search for a member. -/
theorem findMember_round {a b c found : Bytes} (hname : ∀ c ∈ name, isalnum c = true)
    (hfound : Skippable found) (ha : ∀ y, Spaces relaxed (a ++ y) y)
    (hb : ∀ y, Spaces relaxed (b ++ y) y)
    (hc : Derives relaxed .value (c ++ r) r [([], t)]) :
    findMember name (n + 1) (quote :: (found ++ quote :: (a ++ colon :: (b ++ (c ++ r))))) =
      if found = name then .ok (c ++ r) else skipComma r >>= findMember name n := by
  have hcolon : skipWhitespace (a ++ colon :: (b ++ (c ++ r))) = colon :: (b ++ (c ++ r)) :=
    skipWhitespace_eq (ha _) (noSpace_cons (by decide))
  have hvalue : skipWhitespace (b ++ (c ++ r)) = c ++ r :=
    skipWhitespace_eq (hb _) (noSpace_of_derives hc)
  rw [findMember, List.head?_cons, if_pos rfl, List.tail_cons]
  by_cases hsame : found = name
  · subst hsame
    have hpre : (found ++ [quote]).isPrefixOf
        (found ++ quote :: (a ++ colon :: (b ++ (c ++ r)))) = true :=
      List.isPrefixOf_iff_prefix.mpr ⟨a ++ colon :: (b ++ (c ++ r)), by simp⟩
    have hdrop : (quote :: (found ++ quote :: (a ++ colon :: (b ++ (c ++ r))))).drop
        (found.length + 2) = a ++ colon :: (b ++ (c ++ r)) := by
      rw [List.drop_succ_cons, List.drop_append]
      simp
    rw [if_pos hpre, hdrop, if_pos rfl, skipColon, hcolon]
    simp only [if_pos, hvalue]
  · have hpre : ¬ (name ++ [quote]).isPrefixOf
        (found ++ quote :: (a ++ colon :: (b ++ (c ++ r)))) = true := fun hpre =>
      hsame (same_name_of_starts hname hfound (List.isPrefixOf_iff_prefix.mp hpre))
    have hskip : skipMember skip
        (quote :: (found ++ quote :: (a ++ colon :: (b ++ (c ++ r))))) = some r := by
      rw [skipMember, skipString_eq hfound]
      simp only [Option.bind_eq_bind, Option.bind_some]
      rw [hcolon]
      simp only [if_pos, hvalue]
      exact skip_of_derives hc
    rw [if_neg hpre, hskip, if_neg hsame]

theorem findMember_agree (hname : ∀ c ∈ name, isalnum c = true) (h : Encloses .object u items)
    (r r' : Bytes) (hn : u.length < n) (hm : u.length < m) :
    Agree (findMember name n (u ++ r)) (findMember name m (u ++ r')) := by
  induction n generalizing u items m with
  | zero => exact absurd hn (Nat.not_lt_zero _)
  | succ n ih =>
    obtain ⟨m, rfl⟩ := Nat.exists_eq_succ_of_ne_zero (Nat.ne_of_gt (Nat.zero_lt_of_lt hm))
    obtain ⟨w, v, item, rfl, hv, hitem, hcontinues⟩ := h.first
    obtain ⟨found, a, b, c, t, hs, hfound, ha, hb, hc⟩ := member_cases (hitem v rfl)
    have hw : w = quote :: (found ++ quote :: (a ++ colon :: (b ++ c))) := by
      refine List.append_left_injective v ?_
      simpa using hs
    have hround : ∀ n r, findMember name (n + 1) (w ++ v ++ r) =
        if found = name then .ok (c ++ (v ++ r)) else skipComma (v ++ r) >>= findMember name n := by
      intro n r
      rw [← findMember_round hname hfound ha hb (hc (v ++ r) (head_append hv r)), hw]
      simp only [List.append_assoc, List.cons_append]
    rw [hround, hround]
    split
    · exact .there (.value (hc _ (head_append hv r)) (hc _ (head_append hv r')))
    · rcases hcontinues with hfail | ⟨u, rest, hlt, hencloses, hok⟩
      · rw [hfail, hfail]
        exact .fail _
      · rw [hok, hok]
        rw [List.length_append] at hn hm
        exact ih hencloses (by omega) (by omega)

/-- What is behind the opening bracket of the same array or object. -/
theorem same_bracket {text : Bytes} (h : Derives relaxed .value s r [([], .bracket k text items)])
    (h' : Derives relaxed .value s' r' [([], .bracket k text items)]) :
    ∃ s₁ s₁', s = k.opening :: s₁ ∧ s' = k.opening :: s₁' ∧
      (skipWhitespace s₁ = k.closing :: r ∧ skipWhitespace s₁' = k.closing :: r' ∨
        ∃ u, Encloses k u items ∧ skipWhitespace s₁ = u ++ r ∧ skipWhitespace s₁' = u ++ r') := by
  obtain ⟨s₁, rfl, htext, hcases⟩ := bracket_cases h
  obtain ⟨s₁', rfl, htext', -⟩ := bracket_cases h'
  refine ⟨s₁, s₁', rfl, rfl, ?_⟩
  rcases hcases with ⟨rfl, hspaces⟩ | ⟨s₂, hspaces, hi⟩
  · obtain ⟨a, rfl, ha⟩ := hspaces.movable
    have hs₁' : s₁' = a ++ k.closing :: r' := by
      have hopening : text = k.opening :: (a ++ [k.closing]) := by
        refine (List.append_left_injective r ?_).symm
        simpa using htext
      rw [hopening] at htext'
      simpa using htext'
    subst hs₁'
    exact .inl ⟨skipWhitespace_eq (ha _) (noSpace_cons (closing_noSpace k)),
      skipWhitespace_eq (ha _) (noSpace_cons (closing_noSpace k))⟩
  · obtain ⟨a, rfl, ha⟩ := hspaces.movable
    obtain ⟨u, rfl, hencloses⟩ := encloses_of_derives hi
    have hs₁' : s₁' = a ++ (u ++ r') := by
      have hopening : text = k.opening :: (a ++ u) := by
        refine (List.append_left_injective r ?_).symm
        simpa using htext
      rw [hopening] at htext'
      simpa using htext'
    subst hs₁'
    exact .inr ⟨u, hencloses, skipWhitespace_eq (ha _) (noSpace_of_derives (hencloses r)),
      skipWhitespace_eq (ha _) (noSpace_of_derives (hencloses r'))⟩

/-- A step of a specifier. -/
inductive Goes : (Bytes → Except Failure Bytes) → Prop
  | element (i : Nat) : Goes (goToElement i)
  | member {name : Bytes} (hname : ∀ c ∈ name, isalnum c = true) : Goes (goToMember name)

/-- What a step starts with: an opening bracket. -/
theorem Goes.wrong (h : Goes go) (hs : ∀ k : Bracket, s.head? ≠ some k.opening) :
    go s = .error .formatError := by
  cases s with
  | nil => cases h <;> rfl
  | cons c s =>
    have hc : ∀ k : Bracket, c ≠ k.opening := fun k => by simpa using hs k
    cases h with
    | element => exact if_neg (hc .array)
    | member => exact if_neg (hc .object)

theorem Goes.agree (hgo : Goes go) (h : SamePlace s s') : Agree (go s) (go s') := by
  cases h with
  | closing r r' =>
    have hhead : ∀ (r : Bytes) (k : Bracket),
        (Bracket.array.closing :: r).head? ≠ some k.opening := by
      rintro r (_ | _) <;> simp [Bracket.opening, Bracket.closing]
    rw [hgo.wrong (hhead r), hgo.wrong (hhead r')]
    exact .fail _
  | @value _ _ r r' t h h' =>
    cases t with
    | scalar kind text =>
      rw [hgo.wrong (h.head_scalar relaxed_local), hgo.wrong (h'.head_scalar relaxed_local)]
      exact .fail _
    | bracket k text items =>
      obtain ⟨s₁, s₁', rfl, rfl, hcases⟩ := same_bracket h h'
      cases hgo with
      | element i =>
        cases k with
        | object => exact .fail _
        | array =>
          rw [goToElement, if_pos rfl, goToElement, if_pos rfl]
          rcases hcases with ⟨hs, hs'⟩ | ⟨u, hencloses, hs, hs'⟩
          · rw [hs, hs']
            cases i with
            | zero => exact .there (.closing r r')
            | succ i => exact .fail _
          · rw [hs, hs']
            exact skipElements_agree hencloses r r'
      | member hname =>
        cases k with
        | array => exact .fail _
        | object =>
          rw [goToMember, if_pos rfl, goToMember, if_pos rfl]
          rcases hcases with ⟨hs, hs'⟩ | ⟨u, hencloses, hs, hs'⟩
          · rw [hs, hs']
            exact .fail _
          · rw [hs, hs']
            refine findMember_agree hname hencloses r r' ?_ ?_ <;>
            · rw [List.length_append]
              omega

/-! ### Specifiers in pieces -/

/-- The first step of a specifier, and the rest of the specifier. -/
def nextStep (longBits : Nat) : Bytes → Option ((Bytes → Except Failure Bytes) × Bytes)
  | [] => none
  | c :: rest =>
    if c = Bracket.array.opening then
      (getIndex longBits rest).map fun next => (goToElement next.1, next.2)
    else
      let start := if c = 0x2e then rest else c :: rest
      if (start.head?.any isalpha) = true then
        (getMemberName memberNameBytes start).map fun next => (goToMember next.1, next.2)
      else none

theorem findFrom_succ (hs : s ≠ []) (hspec : spec ≠ []) : findFrom longBits (n + 1) spec s =
    match nextStep longBits spec with
    | some next => next.1 s >>= findFrom longBits n next.2
    | none => .error .badParameter := by
  cases spec with
  | nil => exact absurd rfl hspec
  | cons c rest =>
    rw [findFrom, if_neg hs, nextStep]
    dsimp only
    split
    · cases getIndex longBits rest <;> rfl
    · generalize (if c = 0x2e then rest else c :: rest) = start
      split
      · cases getMemberName memberNameBytes start <;> rfl
      · rfl

/-- Where a run of bytes of some kind ends does not depend on what is behind that place. -/
theorem while_append {p : UInt8 → Bool} (more : Bytes)
    (h : s.dropWhile p ≠ [] ∨ NotAhead p more) :
    (s ++ more).takeWhile p = s.takeWhile p ∧ (s ++ more).dropWhile p = s.dropWhile p ++ more := by
  induction s with
  | nil =>
    have hmore : NotAhead p more := h.resolve_left (by simp)
    cases more with
    | nil => exact ⟨rfl, rfl⟩
    | cons c more => simp [hmore c more rfl]
  | cons c s ih =>
    rw [List.cons_append, List.takeWhile_cons, List.takeWhile_cons, List.dropWhile_cons,
      List.dropWhile_cons]
    rw [List.dropWhile_cons] at h
    by_cases hc : p c = true
    · rw [if_pos hc] at h
      obtain ⟨htake, hdrop⟩ := ih h
      rw [if_pos hc, if_pos hc, if_pos hc, if_pos hc, htake]
      exact ⟨rfl, hdrop⟩
    · rw [if_neg hc, if_neg hc, if_neg hc, if_neg hc]
      exact ⟨rfl, rfl⟩

theorem dropSign_append (hs : s ≠ []) : dropSign (s ++ more) = dropSign s ++ more := by
  cases s with
  | nil => exact absurd rfl hs
  | cons c s =>
    rw [List.cons_append, dropSign, dropSign]
    split <;> rfl

theorem length_dropSign_le (s : Bytes) : (dropSign s).length ≤ s.length := by
  cases s with
  | nil => exact Nat.le_refl _
  | cons c s =>
    rw [dropSign]
    split
    · exact Nat.le_succ _
    · exact Nat.le_refl _

theorem strtoul_append {value : Nat} (more : Bytes)
    (h : strtoul longBits s = some (value, r)) (hr : r ≠ []) :
    r.length ≤ s.length ∧ strtoul longBits (s ++ more) = some (value, r ++ more) := by
  have hlen := length_dropWhile_le isspace s
  have hsign := length_dropSign_le (s.dropWhile isspace)
  have hdigits := length_dropWhile_le isDigit (dropSign (s.dropWhile isspace))
  unfold strtoul at h ⊢
  dsimp only at h ⊢
  split at h
  · cases h
  · next hne =>
    cases h
    have hspace : s.dropWhile isspace ≠ [] := by
      intro hnil
      rw [hnil] at hne
      exact hne rfl
    have happend : (s ++ more).dropWhile isspace = s.dropWhile isspace ++ more :=
      (while_append more (.inl hspace)).2
    obtain ⟨htake, hdrop⟩ := while_append more (.inl hr)
    rw [happend, dropSign_append hspace, htake, hdrop, if_neg hne]
    refine ⟨by omega, ?_⟩
    cases hs : s.dropWhile isspace with
    | nil => exact absurd hs hspace
    | cons c rest => rfl

theorem getIndex_append {index : Nat} (more : Bytes)
    (h : getIndex longBits s = some (index, rest)) :
    rest.length < s.length ∧ getIndex longBits (s ++ more) = some (index, rest ++ more) := by
  unfold getIndex at h ⊢
  simp only [Option.bind_eq_bind, Option.bind_eq_some_iff] at h
  obtain ⟨⟨value, r⟩, hvalue, h⟩ := h
  dsimp only at h
  split at h
  · next hends =>
    cases h
    cases r with
    | nil => cases hends.2
    | cons c r =>
      obtain ⟨hle, happend⟩ := strtoul_append more hvalue (by simp)
      refine ⟨Nat.lt_of_lt_of_le (Nat.lt_succ_self _) hle, ?_⟩
      rw [happend]
      exact if_pos hends
  · cases h

theorem getMemberName_append (h : getMemberName size s = some (name, rest))
    (hstart : s.head?.any isalpha = true) (hmore : NotAhead isalnum more) :
    rest.length < s.length ∧ (∀ c ∈ name, isalnum c = true) ∧
      getMemberName size (s ++ more) = some (name, rest ++ more) := by
  obtain ⟨htake, hdrop⟩ := while_append (s := s) more (.inr hmore)
  unfold getMemberName at h ⊢
  dsimp only at h ⊢
  rw [htake, hdrop]
  split at h
  · next hlen =>
    cases h
    refine ⟨?_, fun c hc => List.mem_takeWhile_imp hc, if_pos hlen⟩
    cases s with
    | nil => cases hstart
    | cons c s =>
      have hc : isalnum c = true := by
        rw [isalnum, show isalpha c = true from hstart, Bool.true_or]
      have hle := length_dropWhile_le isalnum s
      rw [List.dropWhile_cons, if_pos hc, List.length_cons]
      omega
  · cases h

/-- A step does not depend on what follows it in the specifier, if that is not a part of a name. -/
theorem nextStep_append (more : Bytes) (h : nextStep longBits spec = some (go, rest))
    (hmore : NotAhead isalnum more) : Goes go ∧ rest.length < spec.length ∧
      nextStep longBits (spec ++ more) = some (go, rest ++ more) := by
  cases spec with
  | nil => cases h
  | cons c spec =>
    rw [nextStep] at h
    rw [List.cons_append, nextStep]
    by_cases hopen : c = Bracket.array.opening
    · rw [if_pos hopen] at h ⊢
      obtain ⟨⟨index, rest'⟩, hindex, h⟩ := Option.map_eq_some_iff.mp h
      cases h
      obtain ⟨hlen, happend⟩ := getIndex_append more hindex
      refine ⟨.element index, Nat.lt_succ_of_lt hlen, ?_⟩
      rw [happend]
      rfl
    · rw [if_neg hopen] at h ⊢
      have hle : (if c = 0x2e then spec else c :: spec).length ≤ (c :: spec).length := by
        split
        · exact Nat.le_succ _
        · exact Nat.le_refl _
      have happend : (if c = 0x2e then spec ++ more else c :: (spec ++ more)) =
          (if c = 0x2e then spec else c :: spec) ++ more := by
        split <;> rfl
      dsimp only at h ⊢
      rw [happend]
      generalize (if c = 0x2e then spec else c :: spec) = start at h hle ⊢
      split at h
      · next hstart =>
        obtain ⟨⟨name, rest'⟩, hname, h⟩ := Option.map_eq_some_iff.mp h
        cases h
        obtain ⟨hlen, halnum, hmember⟩ := getMemberName_append hname hstart hmore
        have hhead : (start ++ more).head?.any isalpha = true := by
          cases start with
          | nil => cases hstart
          | cons d start => exact hstart
        refine ⟨.member halnum, Nat.lt_of_lt_of_le hlen hle, ?_⟩
        rw [if_pos hhead, hmember]
        rfl
      · cases h

/-- Fuel for every byte of the specifier is enough. -/
theorem findFrom_fuel (hn : spec.length < n) (hm : spec.length < m) :
    findFrom longBits n spec s = findFrom longBits m spec s := by
  induction n generalizing m spec s with
  | zero => exact absurd hn (Nat.not_lt_zero _)
  | succ n ih =>
    obtain ⟨m, rfl⟩ := Nat.exists_eq_succ_of_ne_zero (Nat.ne_of_gt (Nat.zero_lt_of_lt hm))
    by_cases hs : s = []
    · unfold findFrom
      rw [if_pos hs, if_pos hs]
    · cases spec with
      | nil => rfl
      | cons c spec =>
        rw [findFrom_succ hs (by simp), findFrom_succ hs (by simp)]
        cases hnext : nextStep longBits (c :: spec) with
        | none => rfl
        | some next =>
          obtain ⟨-, hlt, -⟩ := nextStep_append [] hnext (by rintro _ _ ⟨⟩)
          dsimp only
          refine congrArg (next.1 s >>= ·) (funext fun s₁ => ih ?_ ?_) <;> omega

/-- A specifier is followed piece by piece. -/
theorem findFrom_append (hmore : NotAhead isalnum more)
    (h : findFrom longBits n spec s = .ok s₁) (hm : (spec ++ more).length < m) :
    findFrom longBits m (spec ++ more) s = find longBits s₁ more := by
  induction n generalizing m spec s with
  | zero => cases h
  | succ n ih =>
    have hs : s ≠ [] := by
      rintro rfl
      cases h
    cases spec with
    | nil =>
      rw [findFrom, if_neg hs] at h
      cases h
      exact findFrom_fuel hm (Nat.lt_succ_self _)
    | cons c spec =>
      obtain ⟨m, rfl⟩ := Nat.exists_eq_succ_of_ne_zero (Nat.ne_of_gt (Nat.zero_lt_of_lt hm))
      rw [findFrom_succ hs (by simp)] at h
      cases hnext : nextStep longBits (c :: spec) with
      | none =>
        rw [hnext] at h
        cases h
      | some next =>
        obtain ⟨-, hlt, happend⟩ := nextStep_append more hnext hmore
        rw [hnext] at h
        dsimp only at h
        cases hgo : next.1 s with
        | error e =>
          rw [hgo] at h
          cases h
        | ok s₂ =>
          rw [hgo] at h
          rw [findFrom_succ hs (by simp), happend]
          dsimp only
          rw [hgo]
          refine ih h ?_
          rw [List.length_append] at hm ⊢
          omega

theorem SamePlace.ne_nil (h : SamePlace s s') : s ≠ [] ∧ s' ≠ [] := by
  cases h with
  | closing => exact ⟨by simp, by simp⟩
  | value h h' =>
    obtain ⟨c, w, rfl, -⟩ := starts_of_derives h
    obtain ⟨c', w', rfl, -⟩ := starts_of_derives h'
    exact ⟨by simp, by simp⟩

theorem findFrom_agree (h : SamePlace s s') :
    Agree (findFrom longBits n spec s) (findFrom longBits n spec s') := by
  induction n generalizing spec s s' with
  | zero => exact .fail _
  | succ n ih =>
    obtain ⟨hs, hs'⟩ := h.ne_nil
    cases spec with
    | nil =>
      rw [findFrom, findFrom, if_neg hs, if_neg hs']
      exact .there h
    | cons c spec =>
      rw [findFrom_succ hs (by simp), findFrom_succ hs' (by simp)]
      cases hnext : nextStep longBits (c :: spec) with
      | none => exact .fail _
      | some next =>
        obtain ⟨hgoes, -, -⟩ := nextStep_append [] hnext (by rintro _ _ ⟨⟩)
        exact (hgoes.agree h).bind fun _ _ h => ih h

/-! ### Extraction in two steps -/

/-- Searches that agree lead to one result, in a buffer of any size. -/
theorem jsonExtract_agree {spec' : Bytes}
    (h : Agree (find longBits s spec) (find longBits s' spec')) :
    (∃ e, ∀ size, jsonExtract longBits size s spec = .error e ∧
      jsonExtract longBits size s' spec' = .error e) ∨
    ∃ kind text, ∀ size, jsonExtract longBits size s spec = copyResult size kind text ∧
      jsonExtract longBits size s' spec' = copyResult size kind text := by
  generalize hfind : find longBits s spec = found at h
  generalize hfind' : find longBits s' spec' = found' at h
  cases h with
  | fail e => exact .inl ⟨e, fun size => ⟨jsonExtract_error hfind, jsonExtract_error hfind'⟩⟩
  | there h =>
    cases h with
    | closing r r' =>
      exact .inl ⟨.formatError, fun size => ⟨jsonExtract_closing hfind, jsonExtract_closing hfind'⟩⟩
    | value hv hv' =>
      exact .inr ⟨_, _, fun size => ⟨jsonExtract_derives hfind hv, jsonExtract_derives hfind' hv'⟩⟩

theorem copyResult_large {kind : JsonType} {text : Bytes}
    (h : copyResult size kind text ≠ .error .overflow) :
    copyResult size kind text = .ok (kind, text) := by
  unfold copyResult at h ⊢
  split
  · next hle => exact absurd (if_pos hle) h
  · rfl

/-- What is extracted from an extracted array or object, which is accepted as JSON, is what both
specifiers together extract from the whole text: with buffers of one size, and with any buffers that
are large enough. -/
theorem extract_composes {doc : Bytes} {kind : JsonType}
    (hv : jsonExtract longBits n doc spec = .ok (kind, v)) (hkind : kind = .array ∨ kind = .object)
    (hmore : more.head? = some 0x2e ∨ more.head? = some Bracket.array.opening) :
    (∀ size, jsonExtract longBits size doc (spec ++ more) = jsonExtract longBits size v more) ∧
    (∀ size size', jsonExtract longBits size doc (spec ++ more) ≠ .error .overflow →
      jsonExtract longBits size' v more ≠ .error .overflow →
      jsonExtract longBits size doc (spec ++ more) = jsonExtract longBits size' v more) ∧
    jsonIsValid v = true := by
  obtain ⟨k, s₂, r, hfind, hskip, rfl⟩ := jsonExtract_opening hv hkind
  have hopening : isspace k.opening = false := by cases k <;> decide
  obtain ⟨t, hvalue⟩ := skipValue_sound (noSpace_cons hopening) hskip
  obtain ⟨w, -, hs, hmoved⟩ := value_movable hvalue
  have hvalue' := hmoved [] fun hopen => absurd rfl (hopen k)
  rw [List.append_nil] at hvalue'
  rw [hs] at hfind hvalue ⊢
  rw [textUpTo_append]
  have hahead : NotAhead isalnum more := by
    rintro c rest rfl
    rcases hmore with hc | hc <;> cases hc <;> decide
  have hagree : Agree (find longBits doc (spec ++ more)) (find longBits w more) := by
    have happend := findFrom_append hahead hfind (Nat.lt_succ_self _)
    rw [find, happend]
    exact findFrom_agree (.value hvalue hvalue')
  have hvalid : jsonIsValid w = true :=
    jsonIsValid_iff.mpr ⟨t, w, [], .nil _, hvalue', .nil _⟩
  rcases jsonExtract_agree hagree with ⟨e, heq⟩ | ⟨kind, text, heq⟩
  · exact ⟨fun size => (heq size).1.trans (heq size).2.symm,
      fun size size' _ _ => (heq size).1.trans (heq size').2.symm, hvalid⟩
  · refine ⟨fun size => (heq size).1.trans (heq size).2.symm, fun size size' hlarge hlarge' => ?_,
      hvalid⟩
    rw [(heq size).1] at hlarge ⊢
    rw [(heq size').2] at hlarge' ⊢
    rw [copyResult_large hlarge, copyResult_large hlarge']

/-- `[[1],` is no JSON text, but its first element is. -/
theorem extract_composes_unfinished :
    let doc := Bracket.array.opening :: (oneText ++ [comma])
    let first := Bracket.array.opening :: 0x30 :: [Bracket.array.closing]
    (∀ size, jsonExtract 32 size doc (first ++ first) = jsonExtract 32 size oneText first) ∧
    (∀ size size', jsonExtract 32 size doc (first ++ first) ≠ .error .overflow →
      jsonExtract 32 size' oneText first ≠ .error .overflow →
      jsonExtract 32 size doc (first ++ first) = jsonExtract 32 size' oneText first) ∧
    jsonIsValid oneText = true :=
  extract_composes (n := 8) (v := oneText) (by decide) (.inl rfl) (.inr rfl)

end MangOH.Json
