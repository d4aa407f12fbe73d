import MangOH.Json.Scanner

/-! The JSON scanners on pointers: each byte of a string is read where a pointer says, and each loop
has as many rounds as it is given. -/
namespace MangOH.Json

open JsonGrammar

/-- What a scanner must not do. -/
inductive Fault
  /-- a byte is read behind the terminator -/
  | outOfBounds
  /-- more rounds of a loop, or deeper calls, than were allowed for -/
  | endless
deriving DecidableEq

/-- A string in memory. A pointer is how far it is into the text; the terminator comes after it. -/
structure Memory where
  text : Bytes
  noNul : 0 ∉ text

/-- A pointer, or `NULL`. -/
abbrev Pointer := Except Fault (Option Nat)

namespace Memory

variable (m : Memory)

def read (p : Nat) : Except Fault UInt8 :=
  match m.text[p]? with
  | some c => .ok c
  | none => if p = m.text.length then .ok 0 else .error .outOfBounds

/-- `SkipWhitespace` of a pointer that is not `NULL`. -/
def skipWhitespace : Nat → Nat → Except Fault Nat
  | 0, _ => .error .endless
  | fuel + 1, p => do
    if isspace (← m.read p) then skipWhitespace fuel (p + 1) else return p

/-- The loop of `SkipString`. -/
def skipChars : Nat → Nat → Pointer
  | 0, _ => .error .endless
  | fuel + 1, p => do
    let c ← m.read p
    if c = quote then return some (p + 1)
    else if c = 0 then return none
    else if c = backslash then
      if (← m.read (p + 1)) = quote then skipChars fuel (p + 2) else skipChars fuel (p + 1)
    else skipChars fuel (p + 1)

/-- `SkipString` -/
def skipString (fuel p : Nat) : Pointer := do
  if (← m.read p) = quote then m.skipChars fuel (p + 1) else return none

/-- Whether `strncmp` finds nothing but the text, which is as long as it is let to compare. -/
def matchesText : Bytes → Nat → Except Fault Bool
  | [], _ => return true
  | c :: text, p => do
    if (← m.read p) = c then
      if c = 0 then return true else matchesText text (p + 1)
    else return false

/-- What must follow a literal or a number. -/
def endsValue (p : Nat) : Except Fault Bool := do
  let c ← m.read p
  return isspace c || c == comma || c == Bracket.array.closing || c == Bracket.object.closing ||
    c == 0

/-- `SkipLiteral` -/
def skipLiteral (textToSkip : Bytes) (p : Nat) : Pointer := do
  if ← m.matchesText textToSkip p then
    if ← m.endsValue (p + textToSkip.length) then return some (p + textToSkip.length)
    else return none
  else return none

/-- The end pointer of `strtod`. -/
def strtod (p : Nat) : Except Fault Nat := do
  let _ ← m.read p
  match MangOH.Json.strtod (m.text.drop p) with
  | some r => return m.text.length - r.length
  | none => return p

/-- `SkipNumber` -/
def skipNumber (p : Nat) : Pointer := do
  let endPtr ← m.strtod p
  if endPtr = p then return none
  else if ← m.endsValue endPtr then return some endPtr
  else return none

/-- `SkipMember` -/
def skipMember (skipValue : Nat → Pointer) (fuel p : Nat) : Pointer := do
  match ← m.skipString fuel p with
  | none => return none
  | some p =>
    let p ← m.skipWhitespace fuel p
    if (← m.read p) = colon then skipValue (← m.skipWhitespace fuel (p + 1)) else return none

/-- The loop of `SkipObject` and `SkipArray`. -/
def skipItems (closing : UInt8) (skipItem : Nat → Pointer) (fuel : Nat) : Nat → Nat → Pointer
  | 0, _ => .error .endless
  | rounds + 1, p => do
    if (← m.read p) = 0 then return none
    else
      match ← skipItem p with
      | none => return none
      | some p =>
        let p ← m.skipWhitespace fuel p
        let c ← m.read p
        if c = closing then return some (p + 1)
        else if c = comma then
          skipItems closing skipItem fuel rounds (← m.skipWhitespace fuel (p + 1))
        -- without a comma it goes on where the item ends
        else skipItems closing skipItem fuel rounds p

/-- What `SkipObject` and `SkipArray` have in common. -/
def skipBracket (k : Bracket) (skipItem : Nat → Pointer) (fuel p : Nat) : Pointer := do
  if (← m.read p) = k.opening then
    let p ← m.skipWhitespace fuel (p + 1)
    if (← m.read p) = k.closing then return some (p + 1)
    else m.skipItems k.closing skipItem fuel fuel p
  else return none

/-- `SkipObject` -/
def skipObject (skipValue : Nat → Pointer) (fuel : Nat) : Nat → Pointer :=
  m.skipBracket .object (m.skipMember skipValue fuel) fuel

/-- `SkipArray` -/
def skipArray (skipValue : Nat → Pointer) (fuel : Nat) : Nat → Pointer :=
  m.skipBracket .array skipValue fuel

/-- `SkipValue` -/
def skipValue : Nat → Nat → Pointer
  | 0, _ => .error .endless
  | fuel + 1, p => do
    let c ← m.read p
    if c = Bracket.object.opening then m.skipObject (skipValue fuel) fuel p
    else if c = Bracket.array.opening then m.skipArray (skipValue fuel) fuel p
    else if c = quote then m.skipString fuel p
    else if c = 0x74 then m.skipLiteral trueText p
    else if c = 0x66 then m.skipLiteral falseText p
    else if c = 0x6e then m.skipLiteral nullText p
    else m.skipNumber p

/-- The loop of `GoToElement`. It compares a `size_t` with the index, which is a `long int`. -/
def skipElements (longBits : Nat) (index : Int) (fuel : Nat) :
    Nat → Nat → Nat → Except Fault (Except Failure Nat)
  | 0, _, _ => .error .endless
  | rounds + 1, i, p => do
    if (i : Int) = index % ((2 ^ longBits : Nat) : Int) then return .ok p
    else if (← m.read p) = Bracket.array.closing then return .error .notFound
    else
      match ← m.skipValue fuel p with
      | none => return .error .formatError
      | some p =>
        let p ← m.skipWhitespace fuel p
        if (← m.read p) = comma then
          skipElements longBits index fuel rounds ((i + 1) % 2 ^ longBits)
            (← m.skipWhitespace fuel (p + 1))
        else return .error .formatError

/-- `GoToElement` -/
def goToElement (longBits : Nat) (index : Int) (fuel p : Nat) :
    Except Fault (Except Failure Nat) := do
  if (← m.read p) = Bracket.array.opening then
    m.skipElements longBits index fuel fuel 0 (← m.skipWhitespace fuel (p + 1))
  else return .error .formatError

/-- Whether the name stands here, with the quote after it. -/
def isName (name : Bytes) (p : Nat) : Except Fault Bool := do
  if ← m.matchesText name p then return decide ((← m.read (p + name.length)) = quote)
  else return false

/-- The loop of `GoToMember`. -/
def findMember (name : Bytes) (fuel : Nat) : Nat → Nat → Except Fault (Except Failure Nat)
  | 0, _ => .error .endless
  | rounds + 1, p => do
    let c ← m.read p
    if c = quote then
      if ← m.isName name (p + 1) then
        let p ← m.skipWhitespace fuel (p + name.length + 2)
        if (← m.read p) = colon then return .ok (← m.skipWhitespace fuel (p + 1))
        else return .error .formatError
      else
        match ← m.skipMember (m.skipValue fuel) fuel p with
        | none => return .error .formatError
        | some p =>
          let p ← m.skipWhitespace fuel p
          if (← m.read p) = comma then
            findMember name fuel rounds (← m.skipWhitespace fuel (p + 1))
          else return .error .formatError
    else if c = Bracket.object.closing then return .error .notFound
    else return .error .formatError

/-- `GoToMember` -/
def goToMember (name : Bytes) (fuel p : Nat) : Except Fault (Except Failure Nat) := do
  if (← m.read p) = Bracket.object.opening then
    m.findMember name fuel fuel (← m.skipWhitespace fuel (p + 1))
  else return .error .formatError

/-- `GetMemberName`, into a buffer with room for so many more bytes. -/
def getMemberName : Nat → Nat → Bytes → Except Fault (Option (Bytes × Nat))
  | 0, _, _ => return none
  | room + 1, p, name => do
    let c ← m.read p
    if isalnum c then getMemberName room (p + 1) (name ++ [c]) else return some (name, p)

/-- `strtoul` in base 10, and its end pointer if there are digits. -/
def strtoul (longBits p : Nat) : Except Fault (Option (Nat × Nat)) := do
  let _ ← m.read p
  match MangOH.Json.strtoul longBits (m.text.drop p) with
  | some (value, r) => return some (value, m.text.length - r.length)
  | none => return none

end Memory

/-- An `unsigned long` as a `long int`. -/
def toLong (longBits n : Nat) : Int :=
  if n < 2 ^ longBits / 2 then n else (n : Int) - (2 ^ longBits : Nat)

/-- The index between brackets, and what comes after it. -/
def Memory.getIndex (spec : Memory) (longBits p : Nat) : Except Fault (Option (Int × Nat)) := do
  match ← spec.strtoul longBits p with
  | none => return none
  | some (value, endPtr) =>
    if toLong longBits value < 0 then return none
    else if (← spec.read endPtr) = Bracket.array.closing then
      return some (toLong longBits value, endPtr + 1)
    else return none

/-- The loop of `Find`. -/
def Memory.findFrom (m spec : Memory) (longBits fuel : Nat) :
    Nat → Nat → Nat → Except Fault (Except Failure Nat)
  | 0, _, _ => .error .endless
  | rounds + 1, specPtr, p => do
    if (← m.read p) = 0 then return .error .notFound
    else
      let c ← spec.read specPtr
      if c = 0 then return .ok p
      else if c = Bracket.array.opening then
        match ← spec.getIndex longBits (specPtr + 1) with
        | none => return .error .badParameter
        | some (index, specPtr) =>
          match ← m.goToElement longBits index fuel p with
          | .error e => return .error e
          | .ok p => findFrom m spec longBits fuel rounds specPtr p
      else
        let specPtr := if c = 0x2e then specPtr + 1 else specPtr
        if isalpha (← spec.read specPtr) then
          match ← spec.getMemberName memberNameBytes specPtr [] with
          | none => return .error .badParameter
          | some (name, specPtr) =>
            match ← m.goToMember name fuel p with
            | .error e => return .error e
            | .ok p => findFrom m spec longBits fuel rounds specPtr p
        else return .error .badParameter

/-- `Find`, from a pointer into the JSON text. -/
def Memory.find (m spec : Memory) (longBits fuel p : Nat) : Except Fault (Except Failure Nat) :=
  m.findFrom spec longBits fuel fuel 0 p

end MangOH.Json
