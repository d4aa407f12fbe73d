import MangOH.DataHub.Service

/-! A concrete platform, and the pieces from which runs on it are put together. -/
namespace MangOH.DataHub

/-- The doubles that are small natural numbers. -/
def double (n : Nat) : Double := ⟨BitVec.ofNat 64 (bits n)⟩
where
  bits (n : Nat) : Nat :=
    if n = 0 then 0 else (n * 2 ^ (52 - n.log2)) % 2 ^ 52 + (1023 + n.log2) * 2 ^ 52

/-- The natural number that a small double stands for. -/
def Double.toNat (d : Double) : Nat :=
  if d.magnitude = 0 then 0
  else (d.magnitude % 2 ^ 52 + 2 ^ 52) / 2 ^ (1075 - d.magnitude / 2 ^ 52)

def digits (n : Nat) : CString :=
  if n < 10 then [UInt8.ofNat (48 + n)] else [UInt8.ofNat (48 + n / 10), UInt8.ofNat (48 + n % 10)]

/-- A platform whose arithmetic and printing are right on natural numbers below 100. -/
def smallPlatform : Platform where
  add a b := double (a.toNat + b.toNat)
  sub a b := double (a.toNat - b.toNat)
  mul a b := double (a.toNat * b.toNat)
  div a b := double (a.toNat / b.toNat)
  sqrt a := double (Nat.sqrt a.toNat)
  ofNat := double
  formatLf d := digits d.toNat ++ ascii ".000000"
  utf8Truncate := List.take
  jsonIsValid _ := true
  jsonExtract _ _ := none
  jsonConvertToBoolean _ := false
  jsonConvertToNumber _ := .nan
  sizeofPointer := 8
  leLimitAppNameLen := 47
  appName _ := some (ascii "a")
  legatoEmbedded := false
  peekNextUnlinked _ _ := none

def smallEnvironment : Environment :=
  { now := double 50, relSec := 50, relUsec := 0, fileSystemUp := true }

/-- A run of the hub on the small platform from an empty file system. -/
def smallRun (ops : List Op) : Except Fault Hub :=
  run smallPlatform 8 (boot smallEnvironment []) ops

/-- A run that gets through ends in a state with some property. -/
def smallRunEnds (ops : List Op) (p : Hub → Bool) : Bool :=
  match smallRun ops with
  | .ok h => p h
  | .error _ => false

theorem exists_of_smallRunEnds {ops : List Op} {p : Hub → Bool}
    (hp : smallRunEnds ops p = true) : ∃ h, Reachable smallPlatform h ∧ p h = true := by
  unfold smallRunEnds at hp
  split at hp
  · next h hrun => exact ⟨h, reachable_run _ (.boot _ _) hrun, hp⟩
  · cases hp

/-- The Observation behind a resource, if it is one. -/
def Hub.observation (h : Hub) (r : ResRef) : Option Observation :=
  match h.resources r with
  | some x =>
    match x.cls with
    | .observation o => some o
    | _ => none
  | none => none

theorem observation_eq_some {h : Hub} {r : ResRef} {o : Observation}
    (ho : h.observation r = some o) : ∃ x, h.resources r = some x ∧ x.cls = .observation o := by
  unfold Hub.observation at ho
  split at ho
  · next x hx =>
    split at ho
    · next o' ho' =>
      cases ho
      exact ⟨x, hx, ho'⟩
    · cases ho
  · cases ho

/-- All that Observations have done meets a condition. -/
def Hub.allObs (h : Hub) (p : ObsEvent → Bool) : Bool :=
  h.log.all fun e =>
    match e with
    | .obs _ ev => p ev
    | _ => true

theorem of_allObs {h : Hub} {p : ObsEvent → Bool} (hp : h.allObs p = true) :
    ∀ r ev, .obs r ev ∈ h.log → p ev = true :=
  fun _ _ hmem => List.all_eq_true.mp hp _ hmem

end MangOH.DataHub
