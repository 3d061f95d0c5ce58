import WorkQueue.Json.Reader

/-!
# Passing over a value

The value of an unknown field is checked for its grammar and thrown away. Nothing is kept of it, so
its strings need not be UTF-8, its numbers have no range, and its brackets, kept on a list of those
still open, may nest without bound.

## Main definitions

* `Reader.passString`, `Reader.passNumber`: leaves
* `Reader.passValue`: a whole value
-/

namespace WorkQueue

namespace Reader

/-! ## §1 Leaves -/

/-- Pass over a string whose opening quote has been taken. -/
def passStringBytes : Nat → Reader Unit
  | 0 => throw .endInString
  | fuel + 1 => do
    match ← next? with
    | none => throw .endInString
    | some b =>
      if b = Byte.ofChar '"' then return ()
      else if b = Byte.ofChar '\\' then
        match ← next? with
        | none => throw .endInString
        | some c =>
          if c = Byte.ofChar 'u' then
            let _ ← hexUnit
          else if ¬ simpleEscapes.contains c then throw .invalidEscape
        passStringBytes fuel
      else if b < 0x20 then throw .controlCharacter
      else passStringBytes fuel
where
  simpleEscapes : List UInt8 := ['"', '\\', '/', 'b', 'f', 'n', 'r', 't'].map Byte.ofChar

/-- Pass over a string whose opening quote has been taken. -/
def passString : Reader Unit := do passStringBytes (← get).length

/-- Pass over an exponent whose `e` has been looked at. -/
def passExponent : Reader Unit := do
  skip
  let sign ← peek?
  if sign == some (Byte.ofChar '-') || sign == some (Byte.ofChar '+') then skip
  if (← digits).isEmpty then throw .invalidNumber

/-- Pass over a number whose sign has been taken. -/
def passNumber : Reader Unit := do
  let whole ← digits
  if whole.isEmpty then throw .invalidNumber
  if whole.head? = some (Byte.ofChar '0') ∧ whole.length > 1 then throw .invalidNumber
  if (← peek?) == some (Byte.ofChar '.') then
    skip
    if (← digits).isEmpty then throw .invalidNumber
  let mark ← peek?
  if mark == some (Byte.ofChar 'e') || mark == some (Byte.ofChar 'E') then passExponent

/-- Pass over a value that is no list or object, starting with byte `b`, not yet taken. -/
def passLeaf (b : UInt8) : Reader Unit := do
  if b = Byte.ofChar '"' then
    skip
    passString
  else if b = Byte.ofChar 'n' then
    skip
    letters ['u', 'l', 'l']
  else if b = Byte.ofChar 't' then
    skip
    letters ['r', 'u', 'e']
  else if b = Byte.ofChar 'f' then
    skip
    letters ['a', 'l', 's', 'e']
  else if b = Byte.ofChar '-' then
    skip
    passNumber
  else if Byte.isDigit b then passNumber
  else throw .expectedValue

/-! ## §2 Brackets -/

/-- A bracket that is still open. -/
inductive Bracket where
  | list
  | object
  deriving DecidableEq, Repr

/-- The byte that closes a bracket. -/
def Bracket.close : Bracket → UInt8
  | list => Byte.ofChar ']'
  | object => Byte.ofChar '\x7d'

/-- Where the pass stands. -/
inductive Expecting where
  /-- At a value. -/
  | value
  /-- Behind an opening bracket. -/
  | content
  /-- Behind a value inside a bracket. -/
  | separator
  deriving DecidableEq, Repr

/-- The key and colon in front of a member's value; a list has none. -/
def passKey : Bracket → Reader Unit
  | .list => pure ()
  | .object => do
    match ← peekToken with
    | none => throw .endInObject
    | some b =>
      if b ≠ Byte.ofChar '"' then throw .keyNotString
      skip
      passString
      colon

/-- Pass over what is left of a value inside the given open brackets, the innermost first. Each
byte is met at most twice, which bounds the fuel. -/
def passFrom : Nat → Expecting → List Bracket → Reader Unit
  | 0, _, _ => throw .endInValue
  | fuel + 1, .value, stack => do
    match ← peekToken with
    | none => throw .endInValue
    | some b =>
      if b = Byte.ofChar '[' then
        skip
        passFrom fuel .content (.list :: stack)
      else if b = Byte.ofChar '\x7b' then
        skip
        passFrom fuel .content (.object :: stack)
      else
        passLeaf b
        if stack.isEmpty then return () else passFrom fuel .separator stack
  | _ + 1, _, [] => return ()
  | fuel + 1, expecting, bracket :: outer => do
    match ← peekToken with
    | none => throw (if bracket = .list then .endInList else .endInObject)
    | some b =>
      if b = bracket.close then
        skip
        if outer.isEmpty then return () else passFrom fuel .separator outer
      else if expecting = .content then
        passKey bracket
        passFrom fuel .value (bracket :: outer)
      else if b = Byte.ofChar ',' then
        skip
        passKey bracket
        passFrom fuel .value (bracket :: outer)
      else throw (if bracket = .list then .expectedListSeparator else .expectedObjectSeparator)

/-- Pass over one value. -/
def passValue : Reader Unit := do passFrom (2 * (← get).length + 2) .value []

end Reader

end WorkQueue
