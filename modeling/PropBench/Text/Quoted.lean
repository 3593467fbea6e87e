import PropBench.Text.Visible

/-!
# Text — Quoted

A text in double quotes.  A backslash stands in front of a double quote and of a backslash; a NUL,
a tab, a carriage return and a line feed are a backslash with a digit or a letter; every other
hidden character is an escape with its code point in hexadecimal digits.  All else, the single
quote among it, is written as it is.
-/

namespace PropBench

/-- The hexadecimal digits of a number, the lower-case letters for ten to fifteen. -/
def hexText (n : Nat) : String := String.ofList (Nat.toDigits 16 n)

/-- A character within quotes. -/
def quotedChar (c : Char) : String :=
  match c with
  | '\x00' => "\\0"
  | '\t' => "\\t"
  | '\r' => "\\r"
  | '\n' => "\\n"
  | '\\' => "\\\\"
  | '"' => "\\\""
  | c => if isVisible c then c.toString else "\\u\x7b" ++ hexText c.toNat ++ "\x7d"

/-- A text within quotes. -/
def quoted (s : String) : String := "\"" ++ String.join (s.toList.map quotedChar) ++ "\""

end PropBench
