import WorkQueue.Number.Shortest
import WorkQueue.Text.Quoted

/-!
# What can be wrong with a JSON text or value

The causes fall in two groups: the text breaks the grammar, or a well-formed value is not of the
kind the reader expects. The wording of every cause is in `JsonError.message`.
-/

namespace WorkQueue

/-- What a reader met where it expected something else. -/
inductive Found where
  | null
  | bool (b : Bool)
  | int (n : Int)
  | float (x : Binary64)
  | str (s : String)
  | seq
  | map
  deriving DecidableEq, Repr

namespace Found

/-- The wording of what was met. -/
def describe : Found → String
  | null => "null"
  | bool b => "boolean `" ++ toString b ++ "`"
  | int n => "integer `" ++ toString n ++ "`"
  | float x => "floating point `" ++ x.text ++ "`"
  | str s => "string " ++ quoted s
  | seq => "sequence"
  | map => "map"

end Found

/-- Why a JSON text or value was refused. -/
inductive JsonError where
  /-- The text ends where a value has to stand, or inside a literal or a number. -/
  | endInValue
  | endInString
  | endInList
  | endInObject
  /-- A character that starts no value. -/
  | expectedValue
  /-- A wrong letter inside `true`, `false` or `null`. -/
  | expectedLiteral
  | expectedColon
  | expectedListSeparator
  | expectedObjectSeparator
  | trailingComma
  | keyNotString
  | trailingCharacters
  | invalidNumber
  | numberOutOfRange
  | invalidEscape
  | controlCharacter
  | loneSurrogate
  | unpairedSurrogate
  | invalidCodePoint
  | tooDeep
  /-- A value of the wrong kind. -/
  | invalidType (found : Found) (expected : String)
  /-- A number outside the range of its target. -/
  | invalidValue (found : Found) (expected : String)
  | invalidLength (length : Nat) (expected : String)
  | missingField (name : String)
  | duplicateField (name : String)
  deriving DecidableEq, Repr

namespace JsonError

/-- The wording of an error. -/
def message : JsonError → String
  | endInValue => "EOF while parsing a value"
  | endInString => "EOF while parsing a string"
  | endInList => "EOF while parsing a list"
  | endInObject => "EOF while parsing an object"
  | expectedValue => "expected value"
  | expectedLiteral => "expected ident"
  | expectedColon => "expected `:`"
  | expectedListSeparator => "expected `,` or `]`"
  | expectedObjectSeparator => "expected `,` or `\x7d`"
  | trailingComma => "trailing comma"
  | keyNotString => "key must be a string"
  | trailingCharacters => "trailing characters"
  | invalidNumber => "invalid number"
  | numberOutOfRange => "number out of range"
  | invalidEscape => "invalid escape"
  | controlCharacter => "control character (\\u0000-\\u001F) found while parsing a string"
  | loneSurrogate => "lone leading surrogate in hex escape"
  | unpairedSurrogate => "unexpected end of hex escape"
  | invalidCodePoint => "invalid unicode code point"
  | tooDeep => "recursion limit exceeded"
  | invalidType found expected => "invalid type: " ++ found.describe ++ ", expected " ++ expected
  | invalidValue found expected => "invalid value: " ++ found.describe ++ ", expected " ++ expected
  | invalidLength length expected =>
    "invalid length " ++ toString length ++ ", expected " ++ expected
  | missingField name => "missing field `" ++ name ++ "`"
  | duplicateField name => "duplicate field `" ++ name ++ "`"

end JsonError

end WorkQueue
