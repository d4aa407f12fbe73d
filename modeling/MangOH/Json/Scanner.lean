import MangOH.Json.Strtod
import MangOH.DataHub.Types

/-! The JSON parser. A pointer into a text is the rest of the text from there on; the terminator is
where the rest ends. -/
namespace MangOH.Json

open JsonGrammar
open DataHub (JsonType)

/-- `SkipWhitespace` -/
def skipWhitespace (s : Bytes) : Bytes := s.dropWhile isspace

/-- The loop of `SkipString`: a quote after a backslash is passed over with it. -/
def skipChars : Bytes → Option Bytes
  | [] => none
  | [c] => if c = quote then some [] else none
  | c :: d :: s =>
    if c = quote then some (d :: s)
    else if c = backslash ∧ d = quote then skipChars s
    else skipChars (d :: s)

/-- `SkipString` -/
def skipString : Bytes → Option Bytes
  | c :: s => if c = quote then skipChars s else none
  | [] => none

/-- What must follow a literal or a number: space, a comma, a closing bracket or the end. -/
def endsValue : Bytes → Bool
  | c :: _ => isspace c || c == comma || c == Bracket.array.closing || c == Bracket.object.closing
  | [] => true

/-- `SkipLiteral` -/
def skipLiteral (text s : Bytes) : Option Bytes :=
  if text.isPrefixOf s ∧ endsValue (s.drop text.length) then some (s.drop text.length) else none

/-- `SkipNumber` -/
def skipNumber (s : Bytes) : Option Bytes :=
  match strtod s with
  | some r => if endsValue r then some r else none
  | none => none

/-- `SkipMember` -/
def skipMember (skipValue : Bytes → Option Bytes) (s : Bytes) : Option Bytes := do
  let s ← skipString s
  match skipWhitespace s with
  | c :: s => if c = colon then skipValue (skipWhitespace s) else none
  | [] => none

/-- The loop of `SkipObject` and `SkipArray`. Each round takes at least one byte off the text. -/
def skipItems (closing : UInt8) (skipItem : Bytes → Option Bytes) : Nat → Bytes → Option Bytes
  | 0, _ => none
  | n + 1, s =>
    if s = [] then none
    else do
      let s ← skipItem s
      match skipWhitespace s with
      | c :: s =>
        if c = closing then some s
        else if c = comma then skipItems closing skipItem n (skipWhitespace s)
        else skipItems closing skipItem n (c :: s)
      | [] => none

/-- What `SkipObject` and `SkipArray` have in common. -/
def skipBracket (k : Bracket) (skipItem : Bytes → Option Bytes) : Bytes → Option Bytes
  | c :: s =>
    if c = k.opening then
      match skipWhitespace s with
      | c :: s =>
        if c = k.closing then some s else skipItems k.closing skipItem (s.length + 1) (c :: s)
      | [] => none
    else none
  | [] => none

/-- `SkipObject` -/
def skipObject (skipValue : Bytes → Option Bytes) : Bytes → Option Bytes :=
  skipBracket .object (skipMember skipValue)

/-- `SkipArray` -/
def skipArray (skipValue : Bytes → Option Bytes) : Bytes → Option Bytes :=
  skipBracket .array skipValue

def trueText : Bytes := [0x74, 0x72, 0x75, 0x65]
def falseText : Bytes := [0x66, 0x61, 0x6c, 0x73, 0x65]
def nullText : Bytes := [0x6e, 0x75, 0x6c, 0x6c]

/-- `SkipValue`, for values nested no deeper than the first argument. -/
def skipValue : Nat → Bytes → Option Bytes
  | _, [] => skipNumber []
  | 0, _ :: _ => none
  | depth + 1, c :: s =>
    if c = Bracket.object.opening then skipObject (skipValue depth) (c :: s)
    else if c = Bracket.array.opening then skipArray (skipValue depth) (c :: s)
    else if c = quote then skipString (c :: s)
    else if c = 0x74 then skipLiteral trueText (c :: s)
    else if c = 0x66 then skipLiteral falseText (c :: s)
    else if c = 0x6e then skipLiteral nullText (c :: s)
    else skipNumber (c :: s)

/-- `SkipValue`: a value is never nested deeper than its text is long. -/
def skip (s : Bytes) : Option Bytes := skipValue s.length s

/-- `json_IsValid` -/
def jsonIsValid (jsonValue : Bytes) : Bool :=
  match skip (skipWhitespace jsonValue) with
  | some r => (skipWhitespace r).isEmpty
  | none => false

/-! ### Extraction -/

/-- The errors that `json_Extract` returns. -/
inductive Failure
  | formatError
  | badParameter
  | notFound
  | overflow
deriving DecidableEq, Repr

/-- Skip the comma that has to come next. -/
def skipComma (s : Bytes) : Except Failure Bytes :=
  match skipWhitespace s with
  | c :: s => if c = comma then .ok (skipWhitespace s) else .error .formatError
  | [] => .error .formatError

/-- The loop of `GoToElement`. -/
def skipElements : Nat → Bytes → Except Failure Bytes
  | 0, s => .ok s
  | i + 1, s =>
    if s.head? = some Bracket.array.closing then .error .notFound
    else match skip s with
      | some s => do skipElements i (← skipComma s)
      | none => .error .formatError

/-- `GoToElement` -/
def goToElement (index : Nat) : Bytes → Except Failure Bytes
  | c :: s =>
    if c = Bracket.array.opening then skipElements index (skipWhitespace s)
    else .error .formatError
  | [] => .error .formatError

/-- The value of a member, from the end of its name on. -/
def skipColon (s : Bytes) : Except Failure Bytes :=
  match skipWhitespace s with
  | c :: s => if c = colon then .ok (skipWhitespace s) else .error .formatError
  | [] => .error .formatError

/-- The loop of `GoToMember`. Each round takes at least one byte off the text. -/
def findMember (name : Bytes) : Nat → Bytes → Except Failure Bytes
  | 0, _ => .error .formatError
  | n + 1, s =>
    if s.head? = some quote then
      if (name ++ [quote]).isPrefixOf s.tail then skipColon (s.drop (name.length + 2))
      else match skipMember skip s with
        | some s => do findMember name n (← skipComma s)
        | none => .error .formatError
    else if s.head? = some Bracket.object.closing then .error .notFound
    else .error .formatError

/-- `GoToMember` -/
def goToMember (name : Bytes) : Bytes → Except Failure Bytes
  | c :: s =>
    if c = Bracket.object.opening then
      findMember name ((skipWhitespace s).length + 1) (skipWhitespace s)
    else .error .formatError
  | [] => .error .formatError

def memberNameBytes : Nat := 128

/-- `GetMemberName` -/
def getMemberName (buffSize : Nat) (spec : Bytes) : Option (Bytes × Bytes) :=
  let name := spec.takeWhile isalnum
  if name.length < buffSize then some (name, spec.dropWhile isalnum) else none

/-- The number that decimal digits stand for. -/
def decimal (digits : Bytes) : Nat := digits.foldl (fun n c => 10 * n + (c.toNat - 0x30)) 0

/-- `strtoul` in base 10, with its end pointer; `longBits` is the size of `unsigned long`. -/
def strtoul (longBits : Nat) (s : Bytes) : Option (Nat × Bytes) :=
  let s := s.dropWhile isspace
  let digits := (dropSign s).takeWhile isDigit
  if digits = [] then none
  else
    let value :=
      if 2 ^ longBits ≤ decimal digits then 2 ^ longBits - 1
      else if s.head? = some 0x2d then (2 ^ longBits - decimal digits) % 2 ^ longBits
      else decimal digits
    some (value, (dropSign s).dropWhile isDigit)

/-- The index between brackets; it is a `long int`, and must not be negative. -/
def getIndex (longBits : Nat) (spec : Bytes) : Option (Nat × Bytes) := do
  let (index, rest) ← strtoul longBits spec
  if index < 2 ^ longBits / 2 ∧ rest.head? = some Bracket.array.closing then
    some (index, rest.tail)
  else none

/-- `Find`. Each round takes at least one byte off the specifier. -/
def findFrom (longBits : Nat) : Nat → Bytes → Bytes → Except Failure Bytes
  | 0, _, _ => .error .notFound
  | n + 1, spec, s =>
    if s = [] then .error .notFound
    else match spec with
      | [] => .ok s
      | c :: rest =>
        if c = Bracket.array.opening then
          match getIndex longBits rest with
          | some (index, rest) => do findFrom longBits n rest (← goToElement index s)
          | none => .error .badParameter
        else
          let start := if c = 0x2e then rest else c :: rest
          if (start.head?.any isalpha) = true then
            match getMemberName memberNameBytes start with
            | some (name, rest) => do findFrom longBits n rest (← goToMember name s)
            | none => .error .badParameter
          else .error .badParameter

def find (longBits : Nat) (original extractionSpec : Bytes) : Except Failure Bytes :=
  findFrom longBits (extractionSpec.length + 1) extractionSpec original

/-- Copy a text into the result buffer. -/
def copyResult (resultBuffSize : Nat) (dataType : JsonType) (text : Bytes) :
    Except Failure (JsonType × Bytes) :=
  if resultBuffSize ≤ text.length then .error .overflow else .ok (dataType, text)

/-- The text from a value up to its end. -/
def textUpTo (s r : Bytes) : Bytes := s.take (s.length - r.length)

/-- `json_Extract` -/
def jsonExtract (longBits resultBuffSize : Nat) (jsonValue extractionSpec : Bytes) :
    Except Failure (JsonType × Bytes) := do
  let s ← find longBits jsonValue extractionSpec
  match s with
  | [] => .error .formatError
  | c :: rest =>
    if c = Bracket.object.opening then
      match skip s with
      | some r => copyResult resultBuffSize .object (textUpTo s r)
      | none => .error .formatError
    else if c = Bracket.array.opening then
      match skip s with
      | some r => copyResult resultBuffSize .array (textUpTo s r)
      | none => .error .formatError
    else if c = quote then
      match skipString s with
      | some r => copyResult resultBuffSize .string (textUpTo rest (quote :: r))
      | none => .error .formatError
    else if c = 0x74 then
      if trueText.isPrefixOf s then copyResult resultBuffSize .boolean trueText
      else .error .formatError
    else if c = 0x66 then
      if falseText.isPrefixOf s then copyResult resultBuffSize .boolean falseText
      else .error .formatError
    else if c = 0x6e then
      if nullText.isPrefixOf s then copyResult resultBuffSize .null nullText
      else .error .formatError
    else
      match skipNumber s with
      | some r => copyResult resultBuffSize .number (textUpTo s r)
      | none => .error .formatError

end MangOH.Json
