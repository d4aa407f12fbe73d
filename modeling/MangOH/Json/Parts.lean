import MangOH.Json.Extraction

/-! What `json_Extract` gets out of a JSON text, by whatever specifier, is JSON again. -/
namespace MangOH.Json

open JsonGrammar
open DataHub (JsonType)

variable {s s₁ r r' w u name : Bytes} {k : Bracket} {sym : Symbol} {t : Tree}
  {items : List (Bytes × Tree)} {longBits size n i : Nat}

/-- The text of an array or object is a JSON value by itself. -/
theorem derives_bracket {text : Bytes}
    (h : Derives rfc8259 .value s r [([], .bracket k text items)]) :
    Derives rfc8259 .value text [] [([], .bracket k text items)] := by
  obtain ⟨s₁, rfl, hs, _⟩ := bracket_cases h
  obtain ⟨w, -, hw, hmoved⟩ := h.movable rfc8259_local
  obtain rfl : text = w := List.append_cancel_right (hs.symm.trans hw)
  have hv := hmoved [] fun _ hopen => absurd rfl (hopen k)
  rw [List.append_nil] at hv
  exact hv

/-! ### Any specifier -/

/-- The parser is at a value, or at the end of an array. -/
def Somewhere (s : Bytes) : Prop :=
  (∃ t r, AtValue s t r ∧ Clean t) ∨ ∃ r, s = Bracket.array.closing :: r

theorem Arrives.somewhere {result : Except Failure Bytes} (h : Arrives result s items)
    (hclean : CleanItems items) (hok : result = .ok s₁) : Somewhere s₁ := by
  cases items with
  | nil =>
    rw [show result = .error .formatError from h] at hok
    cases hok
  | cons item rest =>
    obtain ⟨s₂, r₂, hresult, hat, _⟩ := h
    cases hresult.symm.trans hok
    exact .inl ⟨item.2, r₂, hat, (hclean item List.mem_cons_self).2⟩

theorem goToElement_somewhere (h : Somewhere s) (hok : goToElement i s = .ok s₁) :
    Somewhere s₁ := by
  rcases h with ⟨t, r, hat, hclean⟩ | ⟨r, rfl⟩
  · cases t with
    | scalar kind text =>
      have hhead := hat.1.head_scalar rfc8259_local .array
      cases s with
      | nil => cases hok
      | cons c s =>
        rw [goToElement, if_neg (by simpa using hhead)] at hok
        cases hok
    | bracket k text items =>
      obtain ⟨s₂, rfl, _, hbracket⟩ := bracket_cases hat.1
      have hitems := cleanItems_of_bracket (cleanItems_value hclean)
      cases k with
      | object => cases hok
      | array =>
        rw [goToElement, if_pos rfl] at hok
        rcases hbracket with ⟨rfl, hclosing⟩ | ⟨s₃, hspaces, hi⟩
        · rw [skipWhitespace_rfc8259 hclosing (noSpace_cons (closing_noSpace _))] at hok
          cases i with
          | zero =>
            cases hok
            exact .inr ⟨r, rfl⟩
          | succ i => cases hok
        · rw [skipWhitespace_rfc8259 hspaces (noSpace_of_rfc8259 hi)] at hok
          refine (skipElements_arrives hi fun item hitem => ?_).somewhere ?_ hok
          · exact hitems item (List.mem_of_mem_take hitem)
          · exact fun item hitem => hitems item (List.mem_of_mem_drop hitem)
  · cases hok

theorem goToMember_somewhere (hname : ∀ c ∈ name, isalnum c = true) (h : Somewhere s)
    (hok : goToMember name s = .ok s₁) : Somewhere s₁ := by
  rcases h with ⟨t, r, hat, hclean⟩ | ⟨r, rfl⟩
  · cases t with
    | scalar kind text =>
      have hhead := hat.1.head_scalar rfc8259_local .object
      cases s with
      | nil => cases hok
      | cons c s =>
        rw [goToMember, if_neg (by simpa using hhead)] at hok
        cases hok
    | bracket k text items =>
      obtain ⟨s₂, rfl, _, hbracket⟩ := bracket_cases hat.1
      have hitems := cleanItems_of_bracket (cleanItems_value hclean)
      cases k with
      | array => cases hok
      | object =>
        rw [goToMember, if_pos rfl] at hok
        rcases hbracket with ⟨rfl, hclosing⟩ | ⟨s₃, hspaces, hi⟩
        · rw [skipWhitespace_rfc8259 hclosing (noSpace_cons (closing_noSpace _))] at hok
          cases hok
        · rw [skipWhitespace_rfc8259 hspaces (noSpace_of_rfc8259 hi)] at hok
          refine (findMember_arrives hi hname (fun item hitem => ?_) (Nat.lt_succ_self _)).somewhere
            ?_ hok
          · exact hitems item ((List.takeWhile_sublist _).subset hitem)
          · exact fun item hitem => hitems item ((List.dropWhile_sublist _).subset hitem)
  · cases hok

theorem findFrom_somewhere {spec : Bytes} (h : Somewhere s)
    (hok : findFrom longBits n spec s = .ok s₁) : Somewhere s₁ := by
  induction n generalizing s spec with
  | zero => cases hok
  | succ n ih =>
    unfold findFrom at hok
    split at hok
    · cases hok
    · cases spec with
      | nil =>
        cases hok
        exact h
      | cons c rest =>
        dsimp only at hok
        split at hok
        · split at hok
          · next index rest hindex =>
            cases hgo : goToElement index s with
            | error e =>
              rw [hgo] at hok
              cases hok
            | ok s₂ =>
              rw [hgo] at hok
              exact ih (goToElement_somewhere h hgo) hok
          · cases hok
        · generalize (if c = 0x2e then rest else c :: rest) = start at hok
          split at hok
          · split at hok
            · next name rest hname =>
              cases hgo : goToMember name s with
              | error e =>
                rw [hgo] at hok
                cases hok
              | ok s₂ =>
                rw [hgo] at hok
                refine ih (goToMember_somewhere ?_ h hgo) hok
                unfold getMemberName at hname
                dsimp only at hname
                split at hname
                · cases hname
                  exact fun c hc => List.mem_takeWhile_imp hc
                · cases hname
            · cases hok
          · cases hok

theorem findFrom_space {spec : Bytes} {d : UInt8} (hd : isWs d = true)
    (hok : findFrom longBits n spec (d :: s) = .ok s₁) : s₁ = d :: s := by
  cases n with
  | zero => cases hok
  | succ n =>
    have hhead : ∀ k : Bracket, d ≠ k.opening := by
      rintro k rfl
      cases k <;> cases hd
    have hbind : ∀ (e : Failure) (f : Bytes → Except Failure Bytes),
        (Except.error e >>= f) ≠ .ok s₁ := fun e f h => by cases h
    unfold findFrom at hok
    rw [if_neg (by simp)] at hok
    cases spec with
    | nil =>
      cases hok
      rfl
    | cons c rest =>
      dsimp only at hok
      split at hok
      · split at hok
        · rw [goToElement, if_neg (hhead .array)] at hok
          exact absurd hok (hbind _ _)
        · cases hok
      · generalize (if c = 0x2e then rest else c :: rest) = start at hok
        split at hok
        · split at hok
          · rw [goToMember, if_neg (hhead .object)] at hok
            exact absurd hok (hbind _ _)
          · cases hok
        · cases hok

theorem copyResult_eq {kind kind' : JsonType} {text : Bytes}
    (h : copyResult size kind text = .ok (kind', w)) : kind' = kind ∧ w = text := by
  unfold copyResult at h
  split at h
  · cases h
  · cases h
    exact ⟨rfl, rfl⟩

/-- An array or object is found at an opening bracket, up to where it can be skipped. -/
theorem jsonExtract_opening {spec : Bytes} {kind : JsonType}
    (hok : jsonExtract longBits size s spec = .ok (kind, w))
    (hkind : kind = .array ∨ kind = .object) :
    ∃ (k : Bracket) (s₂ r : Bytes), find longBits s spec = .ok (k.opening :: s₂) ∧
      skip (k.opening :: s₂) = some r ∧ w = textUpTo (k.opening :: s₂) r := by
  have hother : ∀ (kind' : JsonType) (text : Bytes), kind' ≠ .array → kind' ≠ .object →
      copyResult size kind' text ≠ .ok (kind, w) := by
    intro kind' text harray hobject h
    obtain ⟨rfl, _⟩ := copyResult_eq h
    exact hkind.elim harray hobject
  unfold jsonExtract at hok
  cases hfind : find longBits s spec with
  | error e =>
    rw [hfind] at hok
    cases hok
  | ok s₁ =>
    simp only [hfind, bind, Except.bind] at hok
    cases s₁ with
    | nil => cases hok
    | cons c s₂ =>
      dsimp only at hok
      split at hok
      · next hc =>
        split at hok
        · next r hskip => exact ⟨.object, s₂, r, by rw [hc], hc ▸ hskip, hc ▸ (copyResult_eq hok).2⟩
        · cases hok
      · split at hok
        · next hc =>
          split at hok
          · next r hskip =>
            exact ⟨.array, s₂, r, by rw [hc], hc ▸ hskip, hc ▸ (copyResult_eq hok).2⟩
          · cases hok
        · split at hok
          · split at hok
            · exact absurd hok (hother .string _ (by simp) (by simp))
            · cases hok
          · split at hok
            · split at hok
              · exact absurd hok (hother .boolean _ (by simp) (by simp))
              · cases hok
            · split at hok
              · split at hok
                · exact absurd hok (hother .boolean _ (by simp) (by simp))
                · cases hok
              · split at hok
                · split at hok
                  · exact absurd hok (hother .null _ (by simp) (by simp))
                  · cases hok
                · split at hok
                  · exact absurd hok (hother .number _ (by simp) (by simp))
                  · cases hok

theorem clean_of_common (h : Derives common sym s r items) : CleanItems items := by
  induction h with
  | literal hw _ _ => exact cleanItems_value (.scalar fun hs => by rw [hs] at hw; cases hw)
  | number => exact cleanItems_value (.scalar (by simp))
  | string hw _ => exact cleanItems_value (.scalar fun _ => hw.2)
  | empty => exact cleanItems_value (.bracket (by simp) (by simp))
  | bracket k h _ _ ih =>
    exact cleanItems_value (.bracket (fun item hitem => (ih item hitem).1)
      fun item hitem => (ih item hitem).2)
  | element _ ih => exact ih
  | member hw _ _ _ _ ih =>
    intro item hitem
    rw [List.mem_singleton.mp hitem]
    exact ⟨hw.2, (ih _ List.mem_cons_self).2⟩
  | last _ _ _ ih => exact ih
  | more _ _ _ _ ih ihr => exact cleanItems_append.mpr ⟨ih, ihr⟩

/-- An array or object that is extracted from a text without misleading strings is such a text. -/
theorem isCommon_extracted {spec : Bytes} {kind : JsonType} (hs : IsText common s)
    (hok : jsonExtract longBits size s spec = .ok (kind, w))
    (hkind : kind = .array ∨ kind = .object) : IsText common w := by
  obtain ⟨k, s₂, r, hfind, hskip, rfl⟩ := jsonExtract_opening hok hkind
  obtain ⟨t, s₁, r₁, hspaces, hv, hend⟩ := hs
  have hclean := (clean_of_common hv _ List.mem_cons_self).2
  have hrfc : Derives rfc8259 .value s₁ r₁ [([], t)] :=
    Derives.map (L := common) (M := rfc8259) id (fun _ => id) (fun _ hw => And.left hw)
      (fun _ _ hn _ => hn) (fun _ _ => trivial) hv fun _ => hend.follows_nil
  cases hspaces with
  | cons hd h =>
    have heq := findFrom_space hd hfind
    cases (List.cons.inj heq).1
    cases k <;> cases hd
  | nil =>
    have hstart : Somewhere s := .inl ⟨t, r₁, ⟨hrfc, hend.follows_nil⟩, hclean⟩
    rcases findFrom_somewhere hstart hfind with ⟨t', r', hat, hclean'⟩ | ⟨r', heq⟩
    · cases t' with
      | scalar kind text => exact absurd rfl (hat.1.head_scalar rfc8259_local k)
      | bracket k' text items =>
        obtain ⟨s₃, hopen, htext, _⟩ := bracket_cases hat.1
        obtain rfl := Option.some.inj (hskip.symm.trans (skip_of_clean hat.1 hclean' hat.2))
        rw [hopen, htext, textUpTo_append]
        have hcommon := common_of_clean (derives_bracket hat.1) (cleanItems_value hclean')
        exact ⟨_, text, [], .nil _, hcommon, .nil _⟩
    · cases k <;> cases (List.cons.inj heq).1

end MangOH.Json
