import PropBench.Grammar.Expression
import PropBench.Parser.Basic

/-!
# Parser — Expression

Parsing expressions.  The connectives are tried from the loosest to the tightest, and a chain is
grouped by `Stacks` as it is read.

* `Parser.negations` counts the negations in front of a primary.
* `Parser.links` reads connectives and operands as long as a connective follows.
* `Parser.chain` counts the parentheses and applications around it: `nesting` may be at most
  `limit`.
-/

namespace PropBench

namespace Parser

/-- The binary connectives, the loosest first, with the symbols and keywords that spell each. -/
def precedence : List (Binary × List Symbol × List Keyword) :=
  [(.iff, [.doubleArrow], [.iff]), (.implies, [.arrow], [.implies, .hence]), (.or, [.bar], [.or]),
    (.and, [.ampersand], [.and])]

/-- Takes the first of some connectives that is there. -/
def anyOf : List (Binary × List Symbol × List Keyword) → Parser Binary
  | [] => fun cs => .error (.recoverable ⟨cs, .combinator .alt⟩)
  | (c, ss, ks) :: table => orElse ((fun _ => c) <$> connective ss ks) (anyOf table)

/-- Takes a binary connective. -/
def binaryOperator : Parser Binary := afterTrivia (anyOf precedence)

/-- Takes a negation. -/
def negation : Parser Unit := connective [.bang, .tilde] [.not]

/-- Takes negations as long as there are any, and counts them. -/
def negations (cs : List Char) : Except Break (Passed Nat cs) :=
  match opt negation cs with
  | .error b => .error b
  | .ok none => .ok (.stay 0 cs)
  | .ok (some t) =>
    have : t.rest.length < cs.length := t.shorter
    (negations t.rest).map fun u => (u.behind (· + 1) this).toPassed
termination_by cs.length
decreasing_by exact this

/-- What is wrong with an expression that is deeper than `limit`. -/
def tooDeep (limit : Nat) (cs : List Char) : Break := .final ⟨cs, .tooDeep limit⟩

/-- An operand, if it is no deeper than the limit. -/
def bounded (limit : Nat) (start : List Char) {cs : List Char} (t : Parsed Operand cs) :
    Except Break (Parsed Operand cs) :=
  if t.value.depth ≤ limit then .ok t else .error (tooDeep limit start)

/-- Negations and a primary. -/
def unary (limit : Nat) (primary : Parser Operand) : Parser Operand := fun cs =>
  match negations cs with
  | .error b => .error b
  | .ok n =>
    if n.value < limit then
      match primary n.rest with
      | .error b => .error b
      | .ok t => bounded limit cs ((t.map (Operand.negate n.value)).within n.noLonger)
    else
      .error (tooDeep limit cs)

/-- Takes connectives and operands as long as a connective follows. -/
def links (operand : Parser Operand) (s : Stacks) (cs : List Char) :
    Except Break (Passed Stacks cs) :=
  match opt binaryOperator cs with
  | .error b => .error b
  | .ok none => .ok (.stay s cs)
  | .ok (some c) =>
    match operand c.rest with
    | .error b => .error b
    | .ok t =>
      have : t.rest.length < cs.length := Nat.lt_trans t.shorter c.shorter
      (links operand (s.push c.value t.value) t.rest).map fun u => (u.behind id this).toPassed
termination_by cs.length
decreasing_by exact this

/-- A chain of operands, grouped. -/
def grouped (limit : Nat) (operand : Parser Operand) : Parser Operand := fun cs =>
  match operand cs with
  | .error b => .error b
  | .ok first =>
    match links operand ⟨[first.value], []⟩ first.rest with
    | .error b => .error b
    | .ok k =>
      match k.value.collapse with
      | [] => .error (.final ⟨cs, .expected Expectation.expression.text⟩)
      | o :: _ => bounded limit cs (k.behind (fun _ => o) first.shorter)

/-- An application or a variable, its name already taken.  The opening parenthesis is looked for,
and taken with the arguments. -/
def application (limit : Nat) (chain? : Option (Parser Operand)) (start : List Char) (x : String)
    (cs : List Char) : Except Break (Passed Operand cs) :=
  match opt (symbol .openParen) cs with
  | .error b => .error b
  | .ok none => .ok (.stay (.leaf (.var x)) cs)
  | .ok (some _) =>
    match chain? with
    | none => .error (tooDeep limit cs)
    | some chain =>
      match parenthesized .openParen chain cs with
      | .error b => .error b
      | .ok t => (bounded limit start (t.map (Operand.apply x))).map Parsed.toPassed

/-- A primary, without blanks and comments in front.  `chain?` parses what stands in parentheses,
unless they are nested too deep. -/
def primaryAt (limit : Nat) (chain? : Option (Parser Operand)) : Parser Operand := fun cs =>
  match opt (symbol .openParen) cs with
  | .error b => .error b
  | .ok (some t) =>
    match chain? with
    | none => .error (tooDeep limit cs)
    | some chain =>
      (followedBy chain (expect .closeParen (symbol .closeParen)) t.rest).map
        (Parsed.within (Nat.le_of_lt t.shorter))
  | .ok none =>
    match opt (symbol .atSign) cs with
    | .error b => .error b
    | .ok (some t) =>
      (((fun f => .leaf (.formula f)) <$> name .formulaName : Parser Operand) t.rest).map
        (Parsed.within (Nat.le_of_lt t.shorter))
    | .ok none =>
      match expect .expression identifier cs with
      | .error b => .error b
      | .ok x =>
        (application limit chain? cs x.value x.rest).map fun u => u.behind id x.shorter

/-- A primary. -/
def primary (limit : Nat) (chain? : Option (Parser Operand)) : Parser Operand :=
  afterTrivia (primaryAt limit chain?)

/-- A chain within `nesting` parentheses and applications. -/
def chain (limit nesting : Nat) : Parser Operand :=
  grouped limit <| unary limit <| primary limit <|
    if h : nesting < limit then
      have : limit - (nesting + 1) < limit - nesting := by omega
      some (chain limit (nesting + 1))
    else
      none
termination_by limit - nesting

/-- An expression of a limited depth. -/
def expression (limit : Nat) : Parser Expr := Operand.expr <$> chain limit 0

end Parser

end PropBench
