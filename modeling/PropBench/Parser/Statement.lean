import PropBench.Grammar.Statement
import PropBench.Parser.Expression

/-!
# Parser — Statement

Parsing statements and programs.  What a keyword decides is parsed behind it; a cell and an entry
are told apart by what they begin with.

* `Parser.statement` takes one statement, with its semicolon.
* `Parser.program` takes statements to the end of a text.
-/

namespace PropBench

namespace Parser

/-- Takes a truth value: one of two keywords, or else one of two digits. -/
def truthValue : Parser Bool := afterTrivia fun cs =>
  match keyword [.truth, .falsity] cs with
  | .ok t => .ok (t.map (· == .truth))
  | .error _ =>
    orElse ((fun _ => true) <$> symbol .one) ((fun _ => false) <$> symbol .zero) cs

/-- Takes an equals sign. -/
def equals : Parser Unit := expect .equals (symbol .equals)

/-- Takes a variable, a colon and a truth value. -/
def assignment : Parser (String × Bool) :=
  name .variableName >>= fun x =>
  expect .colon (symbol .colon) >>= fun _ =>
  (fun b => (x, b)) <$> expect .truthValue truthValue

/-- Takes an arrow and a truth value. -/
def image : Parser Bool :=
  expect .arrow (symbol .arrow) >>= fun _ => expect .truthValue truthValue

/-- Takes a cell, without blanks and comments in front: the wildcard, or else a truth value. -/
def cellAt : Parser Cell := fun cs =>
  match word cs with
  | .error _ => (Cell.value <$> expect .cell truthValue : Parser Cell) cs
  | .ok t =>
    if t.value == "_" then .ok (t.map fun _ => .blank)
    else (Cell.value <$> expect .cell truthValue : Parser Cell) cs

/-- Takes a cell. -/
def cell : Parser Cell := afterTrivia cellAt

/-- Takes an entry of a table: an otherwise entry where its keyword stands, or else a pattern. -/
def entry : Parser Entry := fun cs =>
  match opt (keyword [.otherwise]) cs with
  | .error b => .error b
  | .ok (some t) =>
    ((Entry.otherwise <$> image : Parser Entry) t.rest).map
      (Parsed.within (Nat.le_of_lt t.shorter))
  | .ok none =>
    (parenthesized .entry cell >>= fun cells => Entry.pattern cells <$> image : Parser Entry) cs

/-- Takes the name of an operator in a set: a keyword that names a connective, or else a name. -/
def operatorName : Parser String :=
  orElse (Keyword.text <$> keyword [.not, .and, .or, .implies, .hence, .iff]) identifier

/-- Takes a name, a list of parameters and a table. -/
def operator : Parser Operator :=
  name .operatorName >>= fun o =>
  parenthesized .openParen (name .parameterName) >>= fun parameters =>
  equals >>= fun _ =>
  (fun entries => ⟨o, parameters, ⟨entries⟩⟩) <$> braced entry

/-- Takes what the keyword of a definition announces. -/
def definition (limit : Nat) : Keyword → Parser Statement
  | .variableKind => Statement.defineVariables <$> separated (name .variableName)
  | .formulaKind =>
    name .formulaName >>= fun f =>
    equals >>= fun _ =>
    Statement.defineFormula f <$> expression limit
  | .valuationKind =>
    name .valuationName >>= fun v =>
    equals >>= fun _ =>
    Statement.defineValuation v <$> braced assignment
  | .operatorKind => Statement.defineOperator <$> operator
  | _ =>
    name .opsetName >>= fun s =>
    equals >>= fun _ =>
    Statement.defineOpset s <$> braced (expect .operatorName operatorName)

/-- Takes what follows the first keyword of a statement. -/
def action (limit : Nat) : Keyword → Parser Statement
  | .define =>
    expect .definition
      (keyword [.variableKind, .formulaKind, .valuationKind, .operatorKind, .opsetKind]) >>=
    definition limit
  | .evaluate =>
    name .formulaName >>= fun f =>
    expect .under (keyword [.under]) >>= fun _ =>
    Statement.evaluate f <$> name .valuationName
  | _ => Statement.adequate <$> name .opsetName

/-- Takes a statement and its semicolon. -/
def statement (limit : Nat) : Parser Statement :=
  followedBy (expect .statement (keyword [.define, .evaluate, .adequate]) >>= action limit)
    (expect .semicolon (symbol .semicolon))

/-- Takes statements to the end of a text. -/
def program (limit : Nat) (cs : List Char) : Except Break Program :=
  match skip cs with
  | .error b => .error b
  | .ok u =>
    if u.rest = [] then
      .ok []
    else
      match statement limit u.rest with
      | .error b => .error b
      | .ok t =>
        have : t.rest.length < cs.length := Nat.lt_of_lt_of_le t.shorter u.noLonger
        (program limit t.rest).map (t.value :: ·)
termination_by cs.length
decreasing_by exact this

end Parser

end PropBench
