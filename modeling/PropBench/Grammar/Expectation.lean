import PropBench.Lexeme.Basic

/-!
# Grammar — Expectation

What may stand at a place of a program, as a message says it.
-/

namespace PropBench

/-- What a reader of lexemes expects to find. -/
inductive Expectation where
  | statement
  | definition
  | variableName
  | formulaName
  | valuationName
  | operatorName
  | opsetName
  | parameterName
  | under
  | equals
  | colon
  | semicolon
  | arrow
  | openBrace
  | openParen
  | closeParen
  | commaOrBrace
  | commaOrParen
  | entry
  | cell
  | truthValue
  | expression
  deriving DecidableEq, Repr, Inhabited

/-- The words for an expectation. -/
def Expectation.text : Expectation → String
  | .statement => "DEFINE, EVALUATE, or ADEQUATE"
  | .definition => "VARIABLE, FORMULA, VALUATION, OPERATOR, or OPSET"
  | .variableName => "a variable name"
  | .formulaName => "a formula name"
  | .valuationName => "a valuation name"
  | .operatorName => "an operator name"
  | .opsetName => "an opset name"
  | .parameterName => "a parameter name"
  | .under => "WITH"
  | .equals => "'='"
  | .colon => "':'"
  | .semicolon => "';'"
  | .arrow => "'->'"
  | .openBrace => "'\x7b'"
  | .openParen => "'('"
  | .closeParen => "')'"
  | .commaOrBrace => "',' or '\x7d'"
  | .commaOrParen => "',' or ')'"
  | .entry => "'(' or OTHERWISE"
  | .cell => "a truth value or '_'"
  | .truthValue => "a truth value"
  | .expression => "an expression"

/-- Why a list of lexemes is refused.  Places are given by the lexemes from there on. -/
inductive Refusal where
  /-- Something is expected at `place`, and is not there. -/
  | expected (what : Expectation) (place : List Lexeme)
  /-- The expression that begins at `place` is too deep.  It is refused with the lexemes
  `unread` still to come; `looked` says whether the first of them was looked at. -/
  | tooDeep (place unread : List Lexeme) (looked : Bool)
  deriving DecidableEq, Repr, Inhabited

end PropBench
