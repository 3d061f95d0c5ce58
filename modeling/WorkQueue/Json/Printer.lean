import WorkQueue.Json.Value
import WorkQueue.Number.Shortest
import WorkQueue.Text.Quoted

/-!
# Compact JSON text

Values are written without blanks. In a string only the quote, the backslash and the controls are
escaped; everything else stands as it is. Members are written in the order they are kept in,
which is ascending by key.

## Main definitions

* `Json.renderString`: a string literal
* `Json.render`: a value
-/

namespace WorkQueue

namespace Json

/-- How one character stands in a string literal. -/
def escapeChar (c : Char) : String :=
  match c with
  | '"' => "\\\""
  | '\\' => "\\\\"
  | '\n' => "\\n"
  | '\r' => "\\r"
  | '\t' => "\\t"
  | '\x08' => "\\b"
  | '\x0c' => "\\f"
  | c =>
    if c.toNat < 0x10 then "\\u000" ++ hexDigits c.toNat
    else if c.toNat < 0x20 then "\\u00" ++ hexDigits c.toNat
    else c.toString

/-- The string literal of a text. -/
def renderString (s : String) : String := "\"" ++ String.join (s.toList.map escapeChar) ++ "\""

mutual

/-- The compact text of a value. -/
def render : Json → String
  | null => "null"
  | bool b => toString b
  | int n => toString n
  | float x => x.text
  | str s => renderString s
  | arr items => "[" ++ renderItems items ++ "]"
  | obj members => "\x7b" ++ renderMembers members ++ "\x7d"

/-- Elements, separated by commas. -/
def renderItems : List Json → String
  | [] => ""
  | [v] => v.render
  | v :: w :: rest => v.render ++ "," ++ renderItems (w :: rest)

/-- Members, separated by commas. -/
def renderMembers : List (String × Json) → String
  | [] => ""
  | [(k, v)] => renderString k ++ ":" ++ v.render
  | (k, v) :: m :: rest => renderString k ++ ":" ++ v.render ++ "," ++ renderMembers (m :: rest)

end

example : render (.obj [("a", .arr [.int 1, .null]), ("b", .str "x\n")]) =
    "\x7b\"a\":[1,null],\"b\":\"x\\n\"\x7d" := by decide +kernel

end Json

end WorkQueue
