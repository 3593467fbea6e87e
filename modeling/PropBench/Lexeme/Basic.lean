/-!
# Lexeme — Basic

The lexemes of a program: keywords, names, the wildcard, and symbols.  A word is a letter or an
underscore followed by letters, digits and underscores, of ASCII each.

* `Keyword.ofWord?`: a word is a keyword in any case of its letters.
* `Lexeme.ofWord`: of the words that are no keyword, a lone underscore is the wildcard and any
  other is a name.
* `Lexeme.description`: the words used for a lexeme in a message.
-/

namespace PropBench

/-- The keywords. -/
inductive Keyword where
  | define
  | variableKind
  | formulaKind
  | valuationKind
  | operatorKind
  | opsetKind
  | evaluate
  | under
  | adequate
  | otherwise
  | truth
  | falsity
  | not
  | and
  | or
  | implies
  | hence
  | iff
  deriving DecidableEq, Repr, Inhabited

namespace Keyword

/-- All keywords. -/
def all : List Keyword :=
  [.define, .variableKind, .formulaKind, .valuationKind, .operatorKind, .opsetKind, .evaluate,
    .under, .adequate, .otherwise, .truth, .falsity, .not, .and, .or, .implies, .hence, .iff]

/-- The upper-case spelling. -/
def text : Keyword → String
  | .define => "DEFINE"
  | .variableKind => "VARIABLE"
  | .formulaKind => "FORMULA"
  | .valuationKind => "VALUATION"
  | .operatorKind => "OPERATOR"
  | .opsetKind => "OPSET"
  | .evaluate => "EVALUATE"
  | .under => "WITH"
  | .adequate => "ADEQUATE"
  | .otherwise => "OTHERWISE"
  | .truth => "TRUE"
  | .falsity => "FALSE"
  | .not => "NOT"
  | .and => "AND"
  | .or => "OR"
  | .implies => "IMPLIES"
  | .hence => "THEN"
  | .iff => "IFF"

/-- The keyword a word spells, in any case. -/
def ofWord? (word : String) : Option Keyword := all.find? fun k => k.text == word.toUpper

end Keyword

/-- The symbols. -/
inductive Symbol where
  | doubleArrow
  | arrow
  | openParen
  | closeParen
  | openBrace
  | closeBrace
  | comma
  | colon
  | semicolon
  | equals
  | atSign
  | ampersand
  | bar
  | bang
  | tilde
  | one
  | zero
  deriving DecidableEq, Repr, Inhabited

namespace Symbol

/-- All symbols, none of them the beginning of another. -/
def all : List Symbol :=
  [.doubleArrow, .arrow, .openParen, .closeParen, .openBrace, .closeBrace, .comma, .colon,
    .semicolon, .equals, .atSign, .ampersand, .bar, .bang, .tilde, .one, .zero]

/-- The characters of a symbol. -/
def chars : Symbol → List Char
  | .doubleArrow => ['<', '-', '>']
  | .arrow => ['-', '>']
  | .openParen => ['(']
  | .closeParen => [')']
  | .openBrace => ['{']
  | .closeBrace => ['}']
  | .comma => [',']
  | .colon => [':']
  | .semicolon => [';']
  | .equals => ['=']
  | .atSign => ['@']
  | .ampersand => ['&']
  | .bar => ['|']
  | .bang => ['!']
  | .tilde => ['~']
  | .one => ['1']
  | .zero => ['0']

theorem chars_ne_nil (s : Symbol) : s.chars ≠ [] := by cases s <;> decide

/-- The symbol a text begins with. -/
def atFront? (text : List Char) : Option Symbol := all.find? fun s => s.chars.isPrefixOf text

end Symbol

/-- The lexemes. -/
inductive Lexeme where
  | keyword (k : Keyword)
  | name (text : String)
  | wildcard
  | symbol (s : Symbol)
  deriving DecidableEq, Repr, Inhabited

namespace Lexeme

/-- The lexeme a word is. -/
def ofWord (word : String) : Lexeme :=
  match Keyword.ofWord? word with
  | some k => .keyword k
  | none => if word = "_" then .wildcard else .name word

/-- What a message calls a lexeme. -/
def description : Lexeme → String
  | .keyword k => k.text
  | .name text => s!"identifier '{text}'"
  | .wildcard => "'_'"
  | .symbol s => s!"'{String.ofList s.chars}'"

end Lexeme

end PropBench
