import WorkQueue.Json.Skip

/-!
# Values of an expected kind

A `Shape` says how a value of one kind is taken from a text and from a value that has been read
before. A `RecordShape` lists named fields; it accepts an object, whose fields may come in any
order, and a list that holds the fields in the order they are declared in.

The first problem met is the one reported: text is followed from front to back, an object that
has been read before in the order of its keys.

## Main definitions

* `Shape`: `text`, `flag`, `unsigned`, `signed64`, `any`, with `Shape.optional` and `Shape.listOf`
* `Field`, `RecordShape`: records
* `RecordShape.shape`: a record as a shape
-/

namespace WorkQueue

/-- How values of one kind are read. `read` is given the number of brackets that may be opened. -/
structure Shape (α : Type) where
  read : Nat → Reader α
  convert : Json → Except JsonError α

/-- What a value looks like to a reader that expected something else. -/
def Found.ofJson : Json → Found
  | .null => .null
  | .bool b => .bool b
  | .int n => .int n
  | .float x => .float x
  | .str s => .str s
  | .arr _ => .seq
  | .obj _ => .map

namespace Reader

/-- The value that starts with byte `b` is not of the expected kind. A leaf is read first, so a
broken leaf is reported as such. -/
def mismatch {α : Type} (b : UInt8) (expected : String) : Reader α := do
  if b = Byte.ofChar '[' then throw (.invalidType .seq expected)
  else if b = Byte.ofChar '\x7b' then throw (.invalidType .map expected)
  else
    let found ← leaf b
    throw (.invalidType (.ofJson found) expected)

/-- The first byte of a value. -/
def start : Reader UInt8 := do
  match ← peekToken with
  | none => throw .endInValue
  | some b => return b

end Reader

namespace Shape

/-! ## §1 Scalars -/

/-- Any value. -/
def any : Shape Json where
  read := Reader.value
  convert := .ok

/-- A text. -/
def text : Shape String where
  read _ := do
    let b ← Reader.start
    if b = Byte.ofChar '"' then
      Reader.skip
      Reader.stringBody
    else Reader.mismatch b "a string"
  convert
    | .str s => .ok s
    | v => .error (.invalidType (.ofJson v) "a string")

/-- True or false. -/
def flag : Shape Bool where
  read _ := do
    let b ← Reader.start
    if b = Byte.ofChar 't' ∨ b = Byte.ofChar 'f' then
      match ← Reader.leaf b with
      | .bool v => return v
      | v => throw (.invalidType (.ofJson v) "a boolean")
    else Reader.mismatch b "a boolean"
  convert
    | .bool v => .ok v
    | v => .error (.invalidType (.ofJson v) "a boolean")

/-- A whole number between two bounds, both included. -/
def wholeBetween (low high : Int) (label : String) : Shape Int where
  read _ := do
    let b ← Reader.start
    if b = Byte.ofChar '-' ∨ Byte.isDigit b then
      match check (← Reader.number b) with
      | .ok n => return n
      | .error e => throw e
    else Reader.mismatch b label
  convert := check
where
  check : Json → Except JsonError Int
    | .int n => if low ≤ n ∧ n ≤ high then .ok n else .error (.invalidValue (.int n) label)
    | v => .error (.invalidType (.ofJson v) label)

/-- The same values under a function. -/
def map {α β : Type} (f : α → β) (shape : Shape α) : Shape β where
  read depth := return f (← shape.read depth)
  convert v := return f (← shape.convert v)

/-- A natural of at most `largest`. -/
def unsigned (largest : Nat) (label : String) : Shape Nat :=
  (wholeBetween 0 largest label).map Int.toNat

/-- A 32-bit count. -/
def word32 : Shape Nat := unsigned maxWord32 "u32"

/-- A 64-bit number. -/
def word64 : Shape Nat := unsigned maxWord64 "u64"

/-- A capacity or size, 64 bits wide. -/
def size : Shape Nat := unsigned maxWord64 "usize"

/-- A signed 64-bit number. -/
def signed64 : Shape Int := wholeBetween minSigned64 maxSigned64 "i64"

/-! ## §2 Derived shapes -/

/-- Nothing, written `null`, or a value of the shape. -/
def optional {α : Type} (shape : Shape α) : Shape (Option α) where
  read depth := do
    let b ← Reader.start
    if b = Byte.ofChar 'n' then
      let _ ← Reader.leaf b
      return none
    else return some (← shape.read depth)
  convert
    | .null => .ok none
    | v => return some (← shape.convert v)

/-- A list of values of the shape. -/
def listOf {α : Type} (shape : Shape α) : Shape (List α) where
  read depth := do
    let b ← Reader.start
    if b = Byte.ofChar '[' then
      match depth with
      | 0 => throw .tooDeep
      | depth + 1 =>
        Reader.skip
        let elements ← Reader.items (shape.read depth) (← get).length true
        Reader.closeList
        return elements
    else Reader.mismatch b "a sequence"
  convert
    | .arr items => items.mapM shape.convert
    | v => .error (.invalidType (.ofJson v) "a sequence")

end Shape

/-! ## §3 Records -/

/-- A named field of a record, read as a change to the record. -/
structure Field (α : Type) where
  name : String
  /-- A record without this field is refused. -/
  required : Bool
  change : Shape (α → α)

/-- The field `name`, which sets its part of the record. -/
def Field.of {α β : Type} (name : String) (shape : Shape β) (set : β → α → α) : Field α :=
  ⟨name, false, shape.map set⟩

/-- The same field, which has to be there. -/
def Field.needed {α : Type} (field : Field α) : Field α := { field with required := true }

/-- A record: its title in messages, its fields, and its value where no field is given. -/
structure RecordShape (α : Type) where
  title : String
  fields : List (Field α)
  blank : α

namespace RecordShape

variable {α : Type}

/-- What a list with too few elements should have been. -/
def elementCount (shape : RecordShape α) : String :=
  let n := shape.fields.length
  shape.title ++ " with " ++ toString n ++ (if n = 1 then " element" else " elements")

/-- The record is complete unless a required field has not been seen. -/
def complete (shape : RecordShape α) (seen : List String) (record : α) : Except JsonError α :=
  match shape.fields.find? fun f => f.required && !seen.contains f.name with
  | some f => .error (.missingField f.name)
  | none => .ok record

/-- The members of an object in a text. -/
def readMembers (shape : RecordShape α) (depth : Nat) :
    Nat → Bool → List String → α → Reader α
  | 0, _, _, _ => throw .endInObject
  | fuel + 1, first, seen, record => do
    match ← Reader.nextKey first with
    | none =>
      match shape.complete seen record with
      | .ok record => return record
      | .error e => throw e
    | some key =>
      match shape.fields.find? (·.name == key) with
      | none =>
        Reader.colon
        Reader.passValue
        readMembers shape depth fuel false seen record
      | some field =>
        if seen.contains key then throw (.duplicateField key)
        Reader.colon
        let change ← field.change.read depth
        readMembers shape depth fuel false (key :: seen) (change record)

/-- The fields of a list in a text, in the order of their declaration; `index` have been read. -/
def readElements (shape : RecordShape α) (depth : Nat) :
    List (Field α) → Nat → Bool → α → Reader α
  | [], _, _, record => return record
  | field :: rest, index, first, record => do
    if ← Reader.nextItem first then
      let change ← field.change.read depth
      readElements shape depth rest (index + 1) false (change record)
    else if field.required then throw (.invalidLength index shape.elementCount)
    else readElements shape depth rest (index + 1) first record

/-- A record in a text. -/
def read (shape : RecordShape α) (depth : Nat) : Reader α := do
  let b ← Reader.start
  if b = Byte.ofChar '[' then
    match depth with
    | 0 => throw .tooDeep
    | depth + 1 =>
      Reader.skip
      let record ← shape.readElements depth shape.fields 0 true shape.blank
      Reader.closeList
      return record
  else if b = Byte.ofChar '\x7b' then
    match depth with
    | 0 => throw .tooDeep
    | depth + 1 =>
      Reader.skip
      let record ← shape.readMembers depth (← get).length true [] shape.blank
      Reader.closeObject
      return record
  else Reader.mismatch b shape.title

/-- The members of an object that has been read before. -/
def convertMembers (shape : RecordShape α) :
    List (String × Json) → List String → α → Except JsonError α
  | [], seen, record => shape.complete seen record
  | (key, v) :: rest, seen, record =>
    match shape.fields.find? (·.name == key) with
    | none => convertMembers shape rest seen record
    | some field => do
      let change ← field.change.convert v
      convertMembers shape rest (key :: seen) (change record)

/-- The elements of a list that has been read before; `index` of them have been taken. -/
def convertElements (shape : RecordShape α) :
    List (Field α) → List Json → Nat → α → Except JsonError α
  | [], [], _, record => .ok record
  | [], rest@(_ :: _), index, _ =>
    .error (.invalidLength (index + rest.length) "fewer elements in array")
  | field :: fields, [], index, record =>
    if field.required then .error (.invalidLength index shape.elementCount)
    else convertElements shape fields [] index record
  | field :: fields, v :: rest, index, record => do
    let change ← field.change.convert v
    convertElements shape fields rest (index + 1) (change record)

/-- A record that has been read before. -/
def convert (shape : RecordShape α) : Json → Except JsonError α
  | .obj members => shape.convertMembers members [] shape.blank
  | .arr items => shape.convertElements shape.fields items 0 shape.blank
  | v => .error (.invalidType (.ofJson v) shape.title)

/-- A record as a shape of its own. -/
def shape (record : RecordShape α) : Shape α := ⟨record.read, record.convert⟩

/-- Read a text that holds one record. -/
def parse (shape : RecordShape α) (bytes : ByteArray) : Except JsonError α :=
  (shape.read nestingLimit).parse bytes

end RecordShape

end WorkQueue
