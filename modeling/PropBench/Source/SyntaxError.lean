import PropBench.Grammar.Expectation
import PropBench.Text.Position

/-!
# Source — Syntax error

Why a text is no program.

* `SyntaxError.message` words an error; one with a place begins with its line and column.
-/

namespace PropBench

/-- Why a text is no program. -/
inductive SyntaxError where
  /-- The character at `place` begins no lexeme. -/
  | unknownLexeme (place : Position) (c : Char)
  /-- The comment opened at `place` is never closed. -/
  | unterminatedComment (place : Position)
  /-- A lexeme stands where something else is expected. -/
  | unexpected (place : Position) (expected : Expectation) (found : Lexeme)
  /-- The text ends where something is expected. -/
  | unexpectedEnd (expected : Expectation)
  /-- The expression at `place` is deeper than `limit`. -/
  | tooDeep (place : Position) (limit : Nat)
  /-- The bytes of the text are not UTF-8. -/
  | unreadable
  deriving DecidableEq, Repr, Inhabited

namespace SyntaxError

/-- The wording of an error. -/
def message : SyntaxError → String
  | .unknownLexeme p c => s!"{p.text}: unknown lexeme '{c}'"
  | .unterminatedComment p => s!"{p.text}: unterminated comment"
  | .unexpected p e f => s!"{p.text}: expected {e.text}, found {f.description}"
  | .unexpectedEnd e => s!"unexpected end of input, expected {e.text}"
  | .tooDeep p limit => s!"{p.text}: expression nested deeper than {limit}"
  | .unreadable => "failed to read input"

/-- The kind of an error as a value in a record. -/
def key : SyntaxError → String
  | .unknownLexeme _ _ => "unknown_lexeme"
  | .unterminatedComment _ => "unterminated_comment"
  | .unexpected _ _ _ => "unexpected"
  | .unexpectedEnd _ => "unexpected_end"
  | .tooDeep _ _ => "too_deep"
  | .unreadable => "read"

end SyntaxError

end PropBench
