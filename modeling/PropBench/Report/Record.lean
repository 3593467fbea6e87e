import PropBench.Report.Datum
import PropBench.Symbols.Fault

/-!
# Report — Record

Errors as records.  The kind of an error comes first, then what the error says in detail.
-/

namespace PropBench

namespace SyntaxError

/-- The line and the column of a place, as fields. -/
def placeFields (p : Position) : List (String × Datum) :=
  [("line", .count p.line), ("column", .count p.column)]

/-- What an error says beside its kind. -/
def fields : SyntaxError → List (String × Datum)
  | .unknownLexeme p c => placeFields p ++ [("lexeme", .text c.toString)]
  | .unterminatedComment p => placeFields p
  | .unexpected p e f =>
    placeFields p ++ [("expected", .text e.text), ("found", .text f.description)]
  | .unexpectedEnd e => [("expected", .text e.text)]
  | .tooDeep p limit => placeFields p ++ [("limit", .count limit)]
  | .unreadable => []

/-- An error as a record. -/
def record (e : SyntaxError) : Datum := .record (("error", .text e.key) :: e.fields)

end SyntaxError

namespace Fault

/-- What a fault says beside its kind. -/
def fields : Fault → List (String × Datum)
  | .duplicate space name | .unknown space name =>
    [("namespace", .text space.text), ("name", .text name)]
  | .unbound name => [("variable", .text name)]
  | .arityMismatch o expected found =>
    [("operator", .text o), ("expected", .count expected), ("found", .count found)]
  | .noEntry o input => [("operator", .text o), ("input", .list (input.map .flag))]
  | .arityLimit o arity limit =>
    [("operator", .text o), ("arity", .count arity), ("limit", .count limit)]
  | .depthLimit depth limit => [("depth", .count depth), ("limit", .count limit)]
  | .malformed e => ("error", .text e.key) :: e.fields

/-- A fault as a record. -/
def record (f : Fault) : Datum := .record (("kind", .text f.key) :: f.fields)

end Fault

end PropBench
