import Mathlib.Algebra.Group.Nat.Defs
import MangOH.Json.Scanner

/-! Extraction specifiers, what they denote in a JSON value, and how far the parser gets. -/
namespace MangOH.Json

open JsonGrammar
open DataHub (JsonType)

/-- A step of an extraction specifier: the name of a member, or the index of an element. -/
inductive Component
  | name (w : Bytes) (hw : w ≠ [] ∧ ∀ c ∈ w, isalnum c = true)
  | index (digits : Bytes) (hdigits : IsDigits digits)

namespace Component

def kind : Component → Bracket
  | .name _ _ => .object
  | .index _ _ => .array

/-- How a component is written at the start of a specifier. -/
def text : Component → Bytes
  | .name w _ => w
  | .index digits _ => Bracket.array.opening :: (digits ++ [Bracket.array.closing])

/-- How a component is written after others. -/
def textAfter : Component → Bytes
  | .name w _ => 0x2e :: w
  | .index digits _ => Bracket.array.opening :: (digits ++ [Bracket.array.closing])

end Component

def specAfter (path : List Component) : Bytes := path.flatMap Component.textAfter

/-- The extraction specifier for a path, such as `x[3].y`. -/
def spec : List Component → Bytes
  | [] => []
  | c :: path => c.text ++ specAfter path

/-! ### What a path denotes -/

def hexValue (c : UInt8) : Nat :=
  if isDigit c then c.toNat - 0x30 else if c ≤ 0x46 then c.toNat - 0x37 else c.toNat - 0x57

/-- The inside of a JSON string stands for a name of letters and digits: each is there itself or
as a `\u` escape. -/
def spells : Bytes → Bytes → Bool
  | content, [] => content.isEmpty
  | content, a :: name =>
    match content with
    | 0x5c :: 0x75 :: 0x30 :: 0x30 :: high :: low :: rest =>
      decide (16 * hexValue high + hexValue low = a.toNat) && spells rest name
    | c :: rest => c == a && spells rest name
    | [] => false

/-- The values in a value that a component denotes, first one first, if names are compared in some
way. -/
def Component.select (same : Bytes → Bytes → Bool) (c : Component) :
    List (Bytes × Tree) → List (Bytes × Tree) :=
  match c with
  | .name w _ => List.dropWhile fun item => !same item.1 w
  | .index digits _ => List.drop (decimal digits)

/-- The first value that a path denotes. -/
def lookup : List Component → Tree → Option Tree
  | [], t => some t
  | c :: path, .bracket k _ items =>
    if c.kind = k then
      match c.select spells items with
      | item :: _ => lookup path item.2
      | [] => none
    else none
  | _ :: _, .scalar _ _ => none

/-- The type of a value and its text, strings without their quotes. -/
def extracted : Tree → JsonType × Bytes
  | .scalar .null text => (.null, text)
  | .scalar .boolean text => (.boolean, text)
  | .scalar .number text => (.number, text)
  | .scalar .string text => (.string, text)
  | .bracket .array text _ => (.array, text)
  | .bracket .object text _ => (.object, text)

/-- What extraction is supposed to return. -/
def reference (path : List Component) (t : Tree) : Except Failure (JsonType × Bytes) :=
  match lookup path t with
  | some v => .ok (extracted v)
  | none => .error .notFound

/-! ### How far the parser gets -/

/-- Names are compared as they are written. -/
def asWritten (content name : Bytes) : Bool := content == name

/-- Components that the parser can handle: an index has to fit a `long int`, a name has to fit its
buffer and to start with a letter. -/
def Component.fits (longBits : Nat) : Component → Bool
  | .name w _ => w.head?.any isalpha && decide (w.length < memberNameBytes)
  | .index digits _ => decide (decimal digits < 2 ^ longBits / 2)

/-- The component is recognised to be missing in an empty array or object. -/
def Component.missesEmpty : Component → Bool
  | .name _ _ => true
  | .index digits _ => decide (decimal digits ≠ 0)

/-- Where the walk along a path ends. -/
inductive Walk
  | found (t : Tree)
  /-- in an empty array or object -/
  | absent
  /-- elsewhere, or at a component that the parser cannot handle -/
  | wrong

def walk (longBits : Nat) : List Component → Tree → Walk
  | [], t => .found t
  | c :: path, .bracket k _ items =>
    if c.fits longBits ∧ c.kind = k then
      match c.select asWritten items with
      | item :: _ => walk longBits path item.2
      | [] => if items = [] ∧ c.missesEmpty then .absent else .wrong
    else .wrong
  | _ :: _, .scalar _ _ => .wrong

/-- The walk along a path ends where the path leads to. -/
def WalkRight (longBits : Nat) (path : List Component) (t : Tree) : Prop :=
  match walk longBits path t with
  | .found v => (lookup path t).map extracted = some (extracted v)
  | .absent => lookup path t = none
  | .wrong => False

/-- No string in a value ends in an escaped backslash. -/
inductive Clean : Tree → Prop
  | scalar {kind : Scalar} {text : Bytes}
      (h : kind = .string → text.getLast? ≠ some backslash) : Clean (.scalar kind text)
  | bracket {k : Bracket} {text : Bytes} {items : List (Bytes × Tree)}
      (hnames : ∀ item ∈ items, item.1.getLast? ≠ some backslash)
      (hvalues : ∀ item ∈ items, Clean item.2) : Clean (.bracket k text items)

def CleanItems (items : List (Bytes × Tree)) : Prop :=
  ∀ item ∈ items, item.1.getLast? ≠ some backslash ∧ Clean item.2

/-- The elements or members before the one that a component selects. -/
def Component.before (c : Component) : List (Bytes × Tree) → List (Bytes × Tree) :=
  match c with
  | .name w _ => List.takeWhile fun item => !asWritten item.1 w
  | .index digits _ => List.take (decimal digits)

/-- No string that the parser passes over on its way ends in an escaped backslash. -/
def CleanWay (longBits : Nat) : List Component → Tree → Prop
  | [], t => Clean t
  | c :: path, .bracket k _ items =>
    c.fits longBits = true → c.kind = k → CleanItems (c.before items) ∧
      ∀ item rest, c.select asWritten items = item :: rest → CleanWay longBits path item.2
  | _ :: _, .scalar _ _ => True

end MangOH.Json
