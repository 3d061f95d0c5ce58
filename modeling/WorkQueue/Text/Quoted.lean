import WorkQueue.Text.Hidden

/-!
# Quoted text

A text between double quotes, fit for an error message: the quote and the backslash are escaped,
common controls have short names, and hidden characters are shown by their code point.

## Main definitions

* `quoteChar`: the form of one character
* `quoted`: the form of a text
-/

namespace WorkQueue

/-- Digits of a natural in base sixteen, lower case. -/
def hexDigits (n : Nat) : String := String.ofList (Nat.toDigits 16 n)

/-- How one character stands in a quoted text. -/
def quoteChar (c : Char) : String :=
  match c with
  | '"' => "\\\""
  | '\\' => "\\\\"
  | '\n' => "\\n"
  | '\r' => "\\r"
  | '\t' => "\\t"
  | '\x00' => "\\0"
  | c => if isHidden c then "\\u\x7b" ++ hexDigits c.toNat ++ "\x7d" else c.toString

/-- The text between double quotes, escaped. -/
def quoted (s : String) : String := "\"" ++ String.join (s.toList.map quoteChar) ++ "\""

end WorkQueue
