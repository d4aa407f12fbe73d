import MangOH.Json.Extraction
import MangOH.Lib.JsonValues

/-! Texts put together from the texts of their parts. -/
namespace MangOH.Json

open JsonGrammar

variable {s s₁ r r₁ w name piece : Bytes} {c : UInt8} {k : Bracket} {t : Tree}
  {item : Bytes × Tree} {items : List (Bytes × Tree)} {pieces : List Bytes}

/-- A text is an element or member with white space around it, whatever follows. -/
def ItemText (k : Bracket) (piece : Bytes) (item : Bytes × Tree) : Prop :=
  ∀ r, ∃ s₁ r₁, Spaces rfc8259 (piece ++ r) s₁ ∧ Derives rfc8259 (.item k) s₁ r₁ [item] ∧
    Spaces rfc8259 r₁ r

/-- The pieces in brackets, with commas between them. -/
def bracketed (k : Bracket) (pieces : List Bytes) : Bytes :=
  k.opening :: ([comma].intercalate pieces ++ [k.closing])

/-- A value does not end where it does because of what follows. -/
theorem value_moved (h : Derives rfc8259 .value s r items) :
    ∃ w, s = w ++ r ∧ ∀ r', Derives rfc8259 .value (w ++ r') r' items := by
  cases h with
  | @literal _ w _ _ hw _ hs => exact ⟨w, hs, fun r' => .literal hw trivial rfl⟩
  | @number w _ _ hn hs =>
    obtain ⟨w', hw, heq⟩ := hn
    obtain rfl := List.append_cancel_right (hs.symm.trans heq)
    exact ⟨w, hs, fun r' => .number ⟨w, hw, rfl⟩ rfl⟩
  | @string w _ _ hw hs =>
    refine ⟨quote :: (w ++ [quote]), ?_, fun r' => .string hw ?_⟩
    · rw [hs]
      simp
    · simp
  | empty k h hs =>
    obtain ⟨w, -, hsplit, hmoved⟩ := (Derives.empty (L := rfc8259) k h hs).movable rfc8259_local
    exact ⟨w, hsplit, fun r' => hmoved r' fun _ hhead => absurd rfl (hhead k)⟩
  | bracket k h hi hs =>
    obtain ⟨w, -, hsplit, hmoved⟩ :=
      (Derives.bracket (L := rfc8259) k h hi hs).movable rfc8259_local
    exact ⟨w, hsplit, fun r' => hmoved r' fun _ hhead => absurd rfl (hhead k)⟩

/-- A text can be followed by another one. -/
theorem text_moved (h : Text rfc8259 s t) (r : Bytes) :
    ∃ s₁ r₁, Spaces rfc8259 (s ++ r) s₁ ∧ Derives rfc8259 .value s₁ r₁ [([], t)] ∧
      Spaces rfc8259 r₁ r := by
  obtain ⟨s₁, r₁, hs, hv, hr⟩ := h
  obtain ⟨u, rfl, hu⟩ := hs.movable
  obtain ⟨w, rfl, hw⟩ := value_moved hv
  obtain ⟨v, rfl, hv'⟩ := hr.movable
  refine ⟨w ++ (v ++ r), v ++ r, ?_, hw _, hv' r⟩
  have hall := hu (w ++ (v ++ r))
  simpa only [List.append_assoc, List.append_nil] using hall

theorem ItemText.element (h : Text rfc8259 s t) : ItemText .array s ([], t) := by
  intro r
  obtain ⟨s₁, r₁, hs, hv, hr⟩ := text_moved h r
  exact ⟨s₁, r₁, hs, .element hv, hr⟩

theorem ItemText.member (hname : IsChars name) (h : Text rfc8259 s t) :
    ItemText .object (quote :: (name ++ quote :: colon :: s)) (name, t) := by
  intro r
  obtain ⟨s₁, r₁, hs, hv, hr⟩ := text_moved h r
  have hsplit : quote :: (name ++ quote :: colon :: s) ++ r =
      quote :: (name ++ quote :: (colon :: (s ++ r))) := by
    simp
  exact ⟨_, r₁, .nil _, .member hname hsplit (.nil _) hs hv, hr⟩

theorem intercalate_cons_cons (sep piece next : Bytes) (pieces : List Bytes) :
    sep.intercalate (piece :: next :: pieces) =
      piece ++ (sep ++ sep.intercalate (next :: pieces)) := by
  simp [List.intercalate]

/-- Up to the closing bracket, pieces with commas between them are the items. -/
theorem items_joined (hitems : List.Forall₂ (ItemText k) pieces items) (hne : pieces ≠ [])
    (r : Bytes) : ∃ s₁, Spaces rfc8259 ([comma].intercalate pieces ++ k.closing :: r) s₁ ∧
      Derives rfc8259 (.items k) s₁ r items := by
  induction hitems with
  | nil => exact absurd rfl hne
  | @cons piece item pieces items hitem hrest ih =>
    cases hrest with
    | nil =>
      obtain ⟨s₁, r₁, hs, hi, hr⟩ := hitem (k.closing :: r)
      have hsingle : [comma].intercalate [piece] = piece := by simp [List.intercalate]
      rw [hsingle]
      exact ⟨s₁, hs, .last k hi hr⟩
    | @cons next item' pieces items hnext hrest =>
      obtain ⟨s₂, hs₂, hi₂⟩ := ih (List.cons_ne_nil _ _)
      rw [intercalate_cons_cons, List.append_assoc, List.append_assoc]
      obtain ⟨s₁, r₁, hs, hi, hr⟩ :=
        hitem ([comma] ++ ([comma].intercalate (next :: pieces) ++ k.closing :: r))
      exact ⟨s₁, hs, .more k hi (.comma hr hs₂) hi₂⟩

/-- Items in brackets are a text. -/
theorem text_bracketed (hitems : List.Forall₂ (ItemText k) pieces items) :
    Text rfc8259 (bracketed k pieces) (.bracket k (bracketed k pieces) items) := by
  have hwhole : bracketed k pieces = bracketed k pieces ++ [] := (List.append_nil _).symm
  refine ⟨_, [], .nil _, ?_, .nil _⟩
  by_cases hne : pieces = []
  · subst hne
    cases hitems
    exact .empty k (.nil _) hwhole
  · obtain ⟨s₁, hs, hi⟩ := items_joined hitems hne []
    exact .bracket k hs hi hwhole

/-! ### Taking them apart -/

theorem spaces_self (hs : Spaces rfc8259 (c :: s) r) (hc : isWs c = false) : r = c :: s := by
  cases hs with
  | nil => rfl
  | cons hc' _ =>
    have hspace : isWs c = true := hc'
    rw [hc] at hspace
    cases hspace

/-- A text that starts with a bracket stands for the items in it. -/
theorem items_of_text (h : Text rfc8259 (k.opening :: s) (.bracket k w items)) (hne : items ≠ []) :
    ∃ s₁ r, Spaces rfc8259 s s₁ ∧ Derives rfc8259 (.items k) s₁ r items ∧ Spaces rfc8259 r [] := by
  obtain ⟨s₁, r, hs, hv, hr⟩ := h
  have hsame := spaces_self hs (by cases k <;> decide)
  subst hsame
  generalize hstart : k.opening :: s = start at hv
  cases hv with
  | empty => exact absurd rfl hne
  | bracket _ hspaces hi =>
    obtain ⟨-, rfl⟩ := List.cons.inj hstart
    exact ⟨_, r, hspaces, hi, hr⟩

/-- A member whose name is a letter. -/
theorem member_of_item (hlow : c < 0x80) (hback : c ≠ backslash) (hquote : c ≠ quote)
    (h : Derives rfc8259 (.item .object) (quote :: c :: quote :: colon :: s) r [item]) :
    item.1 = [c] ∧ ∃ s₁, Spaces rfc8259 s s₁ ∧ Derives rfc8259 .value s₁ r [([], item.2)] := by
  generalize hstart : quote :: c :: quote :: colon :: s = start at h
  cases h with
  | member hw hs h₁ h₂ hv =>
    rw [hs] at hstart
    obtain ⟨rfl, rfl⟩ := hw.single hlow hback hquote (List.cons.inj hstart).2.symm
    obtain ⟨-, rfl⟩ := List.cons.inj (spaces_self h₁ (by decide))
    exact ⟨rfl, _, h₂, hv⟩

end MangOH.Json
