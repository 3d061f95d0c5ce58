import WorkQueue.Json.Value
import WorkQueue.Json.Error

/-!
# Reading JSON text

A reader takes values off the front of a list of bytes. Strings are checked to be UTF-8 once they
are complete. Nesting is bounded: a reader is given the number of brackets it may still open, and
the structure of a value follows that number, so reading ends on every input.

## Main definitions

* `Reader`: a step that consumes bytes and may fail
* `Reader.stringBody`, `Reader.number`: the leaves
* `Reader.nextItem`, `Reader.nextKey`: the separators of lists and objects
* `Reader.value`: a value with bounded nesting
* `Json.parse`: a whole text
-/

namespace WorkQueue

/-- A step that takes something off the front of the remaining bytes. -/
abbrev Reader (α : Type) := StateT (List UInt8) (Except JsonError) α

namespace Byte

/-! ## §1 The bytes of the grammar -/

/-- The byte of an ASCII character. -/
abbrev ofChar (c : Char) : UInt8 := c.toNat.toUInt8

/-- Blanks between tokens: space, tab, line feed, carriage return. -/
def isBlank (b : UInt8) : Bool := b == 0x20 || b == 0x09 || b == 0x0a || b == 0x0d

/-- Decimal digits. -/
def isDigit (b : UInt8) : Bool := 0x30 ≤ b && b ≤ 0x39

/-- The value of a decimal digit. -/
def digitValue (b : UInt8) : Nat := b.toNat - 0x30

/-- The value of a hexadecimal digit of either case. -/
def hexValue? (b : UInt8) : Option Nat :=
  if isDigit b then some (digitValue b)
  else if 0x61 ≤ b && b ≤ 0x66 then some (b.toNat - 0x61 + 10)
  else if 0x41 ≤ b && b ≤ 0x46 then some (b.toNat - 0x41 + 10)
  else none

end Byte

namespace Reader

/-! ## §2 Single bytes -/

/-- Skip blanks and look at the byte behind them without taking it. -/
def peekToken : Reader (Option UInt8) := fun s =>
  let rest := s.dropWhile Byte.isBlank
  .ok (rest.head?, rest)

/-- Take one byte, if there is one. -/
def next? : Reader (Option UInt8) := fun s =>
  match s with
  | [] => .ok (none, [])
  | b :: rest => .ok (some b, rest)

/-- Take the byte that was just looked at. -/
def skip : Reader Unit := fun s => .ok ((), s.tail)

/-- Look at the next byte without taking it. -/
def peek? : Reader (Option UInt8) := fun s => .ok (s.head?, s)

/-- Take the longest run of digits. -/
def digits : Reader (List UInt8) := fun s => .ok (s.takeWhile Byte.isDigit, s.dropWhile Byte.isDigit)

/-- Take the given letters, the rest of a literal. -/
def letters : List Char → Reader Unit
  | [] => pure ()
  | c :: cs => do
    match ← next? with
    | none => throw .endInValue
    | some b => if b = Byte.ofChar c then letters cs else throw .expectedLiteral

/-! ## §3 Strings -/

/-- Four hexadecimal digits as a 16-bit unit. -/
def hexUnit : Reader Nat := fun s =>
  match s with
  | a :: b :: c :: d :: rest =>
    match Byte.hexValue? a, Byte.hexValue? b, Byte.hexValue? c, Byte.hexValue? d with
    | some a, some b, some c, some d => .ok (((a * 16 + b) * 16 + c) * 16 + d, rest)
    | _, _, _, _ => .error .invalidEscape
  | _ => .error .endInString

/-- The second half of a surrogate pair has to follow at once, as an escape of its own. -/
def lowSurrogate : Reader Nat := do
  match ← next? with
  | none => throw .endInString
  | some b =>
    if b ≠ Byte.ofChar '\\' then throw .unpairedSurrogate
    match ← next? with
    | none => throw .endInString
    | some b =>
      if b ≠ Byte.ofChar 'u' then throw .unpairedSurrogate
      let low ← hexUnit
      if low < 0xDC00 ∨ 0xDFFF < low then throw .loneSurrogate
      return low

/-- The character of a `\u` escape whose `u` has been taken. -/
def unicodeEscape : Reader Char := do
  let unit ← hexUnit
  if 0xDC00 ≤ unit ∧ unit ≤ 0xDFFF then throw .loneSurrogate
  if unit < 0xD800 ∨ 0xDBFF < unit then return Char.ofNat unit
  let low ← lowSurrogate
  return Char.ofNat (0x10000 + (unit - 0xD800) * 0x400 + (low - 0xDC00))

/-- The character of an escape whose backslash has been taken. -/
def escape : Reader Char := do
  match ← next? with
  | none => throw .endInString
  | some b =>
    if b = Byte.ofChar '"' then return '"'
    else if b = Byte.ofChar '\\' then return '\\'
    else if b = Byte.ofChar '/' then return '/'
    else if b = Byte.ofChar 'b' then return '\x08'
    else if b = Byte.ofChar 'f' then return '\x0c'
    else if b = Byte.ofChar 'n' then return '\n'
    else if b = Byte.ofChar 'r' then return '\r'
    else if b = Byte.ofChar 't' then return '\t'
    else if b = Byte.ofChar 'u' then unicodeEscape
    else throw .invalidEscape

/-- The bytes of a string up to and without its closing quote. The fuel is the number of bytes
that are left, of which every round takes at least one. -/
def stringBytes : Nat → Reader (List UInt8)
  | 0 => throw .endInString
  | fuel + 1 => do
    match ← next? with
    | none => throw .endInString
    | some b =>
      if b = Byte.ofChar '"' then return []
      else if b = Byte.ofChar '\\' then
        let c ← escape
        return c.toString.toUTF8.data.toList ++ (← stringBytes fuel)
      else if b < 0x20 then throw .controlCharacter
      else return b :: (← stringBytes fuel)

/-- A string whose opening quote has been taken. -/
def stringBody : Reader String := do
  let bytes ← stringBytes (← get).length
  match String.fromUTF8? ⟨bytes.toArray⟩ with
  | some s => return s
  | none => throw .invalidCodePoint

/-! ## §4 Numbers -/

/-- Add digits to a significand as long as it stays below `2 ^ 64`. Gives the significand and the
digits that were left over. -/
def absorb (significand : Nat) : List UInt8 → Nat × List UInt8
  | [] => (significand, [])
  | b :: rest =>
    let grown := significand * 10 + Byte.digitValue b
    if grown ≤ maxWord64 then absorb grown rest else (significand, b :: rest)

/-- The double `± significand · 10 ^ exponent`. -/
def scaled (negative : Bool) (significand : Nat) (exponent : Int) : Reader Json :=
  match (Binary64.ofNat? significand).bind (·.scale? exponent) with
  | some x => return .float (x.withSign negative)
  | none => throw .numberOutOfRange

/-- The exponent of a number whose `e` has been looked at, on top of `exponent`. An exponent that
does not fit 32 bits is out of range unless the number is zero or the exponent is negative. -/
def exponentPart (negative : Bool) (significand : Nat) (exponent : Int) : Reader Json := do
  skip
  let sign ← peek?
  let lowered := sign == some (Byte.ofChar '-')
  if lowered || sign == some (Byte.ofChar '+') then skip
  match ← peek? with
  | none => throw .endInValue
  | some b =>
    if ¬ Byte.isDigit b then throw .invalidNumber
    let size := (← digits).foldl (fun n b => n * 10 + Byte.digitValue b) 0
    if size ≤ 2147483647 then
      scaled negative significand (if lowered then exponent - size else exponent + size)
    else if significand ≠ 0 ∧ ¬ lowered then throw .numberOutOfRange
    else return .float ⟨negative, 0, -1074⟩

/-- What may follow the digits before the point: a fraction, an exponent, both or neither.
`dropped` counts digits that the significand had no room for. -/
def numberTail (negative : Bool) (significand dropped : Nat) (whole : Reader Json) :
    Reader Json := do
  let mark ← peek?
  if mark == some (Byte.ofChar '.') then
    skip
    let fraction ← digits
    if fraction.isEmpty then
      match ← peek? with
      | none => throw .endInValue
      | some _ => throw .invalidNumber
    let (significand, left) := absorb significand fraction
    let exponent : Int := (dropped : Int) - ((fraction.length : Int) - left.length)
    let mark ← peek?
    if mark == some (Byte.ofChar 'e') || mark == some (Byte.ofChar 'E') then
      exponentPart negative significand exponent
    else scaled negative significand exponent
  else if mark == some (Byte.ofChar 'e') || mark == some (Byte.ofChar 'E') then
    exponentPart negative significand dropped
  else whole

/-- A number without a fraction or an exponent: whole if it fits a 64-bit word, else a double.
Negative zero is a double too. -/
def wholeNumber (negative : Bool) (significand dropped : Nat) : Reader Json :=
  if dropped = 0 then
    if ¬ negative then return .int significand
    else
      let n : Int := -(significand : Int)
      if n = 0 ∨ n < minSigned64 then scaled true significand 0 else return .int n
  else scaled negative significand dropped

/-- A number whose sign has been taken. -/
def unsignedNumber (negative : Bool) : Reader Json := do
  match ← peek? with
  | none => throw .endInValue
  | some b =>
    if ¬ Byte.isDigit b then throw .invalidNumber
    let whole ← digits
    if b = Byte.ofChar '0' ∧ whole.length > 1 then throw .invalidNumber
    let (significand, left) := absorb 0 whole
    numberTail negative significand left.length (wholeNumber negative significand left.length)

/-- A number that starts with byte `b`, not yet taken. -/
def number (b : UInt8) : Reader Json := do
  if b = Byte.ofChar '-' then
    skip
    unsignedNumber true
  else unsignedNumber false

/-! ## §5 Lists and objects -/

/-- Is there another element? Takes the comma in front of it. -/
def nextItem (first : Bool) : Reader Bool := do
  match ← peekToken with
  | none => throw .endInList
  | some b =>
    if b = Byte.ofChar ']' then return false
    else if first then return true
    else if b = Byte.ofChar ',' then
      skip
      match ← peekToken with
      | none => throw .endInValue
      | some b => if b = Byte.ofChar ']' then throw .trailingComma else return true
    else throw .expectedListSeparator

/-- Take the bracket that ends a list. -/
def closeList : Reader Unit := do
  match ← peekToken with
  | none => throw .endInList
  | some b =>
    if b = Byte.ofChar ']' then skip
    else if b = Byte.ofChar ',' then
      skip
      match ← peekToken with
      | some b => if b = Byte.ofChar ']' then throw .trailingComma else throw .trailingCharacters
      | none => throw .trailingCharacters
    else throw .trailingCharacters

/-- The next key, if the object goes on. Takes the comma in front of it. -/
def nextKey (first : Bool) : Reader (Option String) := do
  match ← peekToken with
  | none => throw .endInObject
  | some b =>
    if b = Byte.ofChar '\x7d' then return none
    else if first then
      if b = Byte.ofChar '"' then key else throw .keyNotString
    else if b = Byte.ofChar ',' then
      skip
      match ← peekToken with
      | none => throw .endInValue
      | some b =>
        if b = Byte.ofChar '"' then key
        else if b = Byte.ofChar '\x7d' then throw .trailingComma
        else throw .keyNotString
    else throw .expectedObjectSeparator
where
  key : Reader (Option String) := do
    skip
    return some (← stringBody)

/-- Take the colon behind a key. -/
def colon : Reader Unit := do
  match ← peekToken with
  | none => throw .endInObject
  | some b => if b = Byte.ofChar ':' then skip else throw .expectedColon

/-- Take the brace that ends an object. -/
def closeObject : Reader Unit := do
  match ← peekToken with
  | none => throw .endInObject
  | some b =>
    if b = Byte.ofChar '\x7d' then skip
    else if b = Byte.ofChar ',' then throw .trailingComma
    else throw .trailingCharacters

/-- The elements of a list whose opening bracket has been taken, without the closing one. The fuel
is the number of bytes left, of which every element takes at least one. -/
def items {α : Type} (item : Reader α) : Nat → Bool → Reader (List α)
  | 0, _ => throw .endInList
  | fuel + 1, first => do
    if ← nextItem first then
      let x ← item
      return x :: (← items item fuel false)
    else return []

/-- The members of an object whose opening brace has been taken, without the closing one. -/
def members {α : Type} (item : Reader α) : Nat → Bool → Reader (List (String × α))
  | 0, _ => throw .endInObject
  | fuel + 1, first => do
    match ← nextKey first with
    | none => return []
    | some key =>
      colon
      let x ← item
      return (key, x) :: (← members item fuel false)

/-! ## §6 Values -/

/-- A value that is neither a list nor an object, starting with byte `b`, not yet taken. -/
def leaf (b : UInt8) : Reader Json := do
  if b = Byte.ofChar '"' then
    skip
    return .str (← stringBody)
  else if b = Byte.ofChar 'n' then
    skip
    letters ['u', 'l', 'l']
    return .null
  else if b = Byte.ofChar 't' then
    skip
    letters ['r', 'u', 'e']
    return .bool true
  else if b = Byte.ofChar 'f' then
    skip
    letters ['a', 'l', 's', 'e']
    return .bool false
  else if b = Byte.ofChar '-' ∨ Byte.isDigit b then number b
  else throw .expectedValue

/-- A value with at most the given number of brackets around its innermost part. -/
def value : Nat → Reader Json
  | 0 => do
    match ← peekToken with
    | none => throw .endInValue
    | some b =>
      if b = Byte.ofChar '[' ∨ b = Byte.ofChar '\x7b' then throw .tooDeep else leaf b
  | depth + 1 => do
    match ← peekToken with
    | none => throw .endInValue
    | some b =>
      if b = Byte.ofChar '[' then
        skip
        let elements ← items (value depth) (← get).length true
        closeList
        return .arr elements
      else if b = Byte.ofChar '\x7b' then
        skip
        let pairs ← members (value depth) (← get).length true
        closeObject
        return .ofMembers pairs
      else leaf b

/-- Nothing but blanks may follow a text. -/
def finish : Reader Unit := do
  match ← peekToken with
  | none => return ()
  | some _ => throw .trailingCharacters

/-- Run a reader on a whole text. -/
def parse {α : Type} (reader : Reader α) (bytes : ByteArray) : Except JsonError α :=
  (do
    let x ← reader
    finish
    return x : Reader α).run' bytes.data.toList

end Reader

/-- How many brackets may stand around the innermost value of a text. -/
def nestingLimit : Nat := 127

/-- Read a text that holds one value. -/
def Json.parse (bytes : ByteArray) : Except JsonError Json :=
  (Reader.value nestingLimit).parse bytes

end WorkQueue
