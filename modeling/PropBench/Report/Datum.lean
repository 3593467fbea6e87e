/-!
# Report — Datum

Records as data: truth values, numbers, texts, lists and records with fields in a fixed order.

* `Datum.pretty` writes a datum as JSON, one item or field a line, each level two blanks further
  in.  Empty lists and records stay on their line.
-/

namespace PropBench

/-- A value of a record. -/
inductive Datum where
  | flag (b : Bool)
  | count (n : Nat)
  | text (s : String)
  | list (items : List Datum)
  | record (fields : List (String × Datum))
  deriving Inhabited

namespace Datum

/-- A hexadecimal digit. -/
def hexDigit (n : Nat) : Char := "0123456789abcdef".toList.getD n '0'

/-- The written form of a character in a string: quotes, backslashes and control characters are
escaped, the usual ones by a letter. -/
def escape (c : Char) : String :=
  match c with
  | '"' => "\\\""
  | '\\' => "\\\\"
  | '\x08' => "\\b"
  | '\x0c' => "\\f"
  | '\n' => "\\n"
  | '\r' => "\\r"
  | '\t' => "\\t"
  | c =>
    if c.toNat < 0x20 then
      "\\u00" ++ String.ofList [hexDigit (c.toNat / 16), hexDigit (c.toNat % 16)]
    else
      c.toString

/-- A text as a JSON string. -/
def quote (s : String) : String := "\"" ++ String.join (s.toList.map escape) ++ "\""

/-- Lines at the given level of indentation, between the lines that open and close them. -/
def block (opening closing : String) (level : Nat) (lines : List String) : String :=
  match lines with
  | [] => opening ++ closing
  | lines =>
    let indent := fun n => String.ofList (List.replicate (2 * n) ' ')
    opening ++ "\n" ++ ",\n".intercalate (lines.map fun l => indent (level + 1) ++ l) ++ "\n" ++
      indent level ++ closing

mutual

/-- A datum as JSON, at a level of indentation. -/
def prettyAt (level : Nat) : Datum → String
  | .flag b => if b then "true" else "false"
  | .count n => toString n
  | .text s => quote s
  | .list items => block "[" "]" level (prettyItems (level + 1) items)
  | .record fields => block "\x7b" "\x7d" level (prettyFields (level + 1) fields)

/-- The items of a list, each at the level inside its brackets. -/
def prettyItems (level : Nat) : List Datum → List String
  | [] => []
  | d :: ds => prettyAt level d :: prettyItems level ds

/-- The fields of a record, each at the level inside its braces. -/
def prettyFields (level : Nat) : List (String × Datum) → List String
  | [] => []
  | (name, d) :: fields => (quote name ++ ": " ++ prettyAt level d) :: prettyFields level fields

end

/-- A datum as JSON. -/
def pretty (d : Datum) : String := prettyAt 0 d

end Datum

end PropBench
