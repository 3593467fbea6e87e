import PropBench.Grammar.Expression
import PropBench.Program.Statement

/-!
# Grammar — Statement

Reading statements and programs.  Each statement ends with a semicolon, which is the last lexeme
looked at.

* `Reader.statement` reads one statement.
* `readProgram` reads statements as long as there are lexemes, and keeps those in front of a
  refusal.
-/

namespace PropBench

/-- The truth value a lexeme stands for. -/
def Lexeme.truthValue? : Lexeme → Option Bool
  | .keyword .truth | .symbol .one => some true
  | .keyword .falsity | .symbol .zero => some false
  | _ => none

/-- The cell a lexeme stands for. -/
def Lexeme.cell? : Lexeme → Option Cell
  | .wildcard => some .blank
  | l => l.truthValue?.map .value

/-- The operator name a lexeme stands for: a name, or a keyword that names a connective, in
upper case. -/
def Lexeme.operatorName? : Lexeme → Option String
  | .name n => some n
  | .keyword .not => some Keyword.not.text
  | .keyword .and => some Keyword.and.text
  | .keyword .or => some Keyword.or.text
  | .keyword .implies => some Keyword.implies.text
  | .keyword .hence => some Keyword.hence.text
  | .keyword .iff => some Keyword.iff.text
  | _ => none

/-- What a definition defines. -/
inductive DefinitionKind where
  | vars
  | formula
  | valuation
  | operator
  | opset
  deriving DecidableEq, Repr, Inhabited

/-- The kind of definition a lexeme announces. -/
def Lexeme.definitionKind? : Lexeme → Option DefinitionKind
  | .keyword .variableKind => some .vars
  | .keyword .formulaKind => some .formula
  | .keyword .valuationKind => some .valuation
  | .keyword .operatorKind => some .operator
  | .keyword .opsetKind => some .opset
  | _ => none

/-- What a statement does. -/
inductive StatementVerb where
  | define
  | evaluate
  | adequate
  deriving DecidableEq, Repr, Inhabited

/-- The verb a lexeme stands for. -/
def Lexeme.verb? : Lexeme → Option StatementVerb
  | .keyword .define => some .define
  | .keyword .evaluate => some .evaluate
  | .keyword .adequate => some .adequate
  | _ => none

namespace Reader

/-- A truth value, by a word or by a digit. -/
def truthValue : Reader Bool := accept .truthValue Lexeme.truthValue?

/-- The sign between a name and its definition. -/
def equals : Reader Unit := symbol .equals .equals

/-- A variable, a colon and a truth value. -/
def assignment : Reader (String × Bool) :=
  name .variableName >>= fun x =>
  symbol .colon .colon >>= fun _ =>
  (fun b => (x, b)) <$> truthValue

/-- An arrow and a truth value. -/
def image : Reader Bool := symbol .arrow .arrow >>= fun _ => truthValue

/-- A pattern entry. -/
def patternEntry : Reader Entry :=
  parenthesized .entry (accept .cell Lexeme.cell?) >>= fun cells => Entry.pattern cells <$> image

/-- An otherwise entry. -/
def otherwiseEntry : Reader Entry :=
  keyword .otherwise .entry >>= fun _ => Entry.otherwise <$> image

/-- An entry of a table. -/
def entry : Reader Entry
  | .keyword .otherwise :: ls => otherwiseEntry (.keyword .otherwise :: ls)
  | ls => patternEntry ls

/-- A name, a list of parameters and a table. -/
def operator : Reader Operator :=
  name .operatorName >>= fun o =>
  parenthesized .openParen (name .parameterName) >>= fun parameters =>
  equals >>= fun _ =>
  (fun entries => ⟨o, parameters, ⟨entries⟩⟩) <$> braced entry

/-- What follows the keywords of a definition. -/
def definition (limit : Nat) : DefinitionKind → Reader Statement
  | .vars => Statement.defineVariables <$> separated (name .variableName)
  | .formula =>
    name .formulaName >>= fun f =>
    equals >>= fun _ =>
    Statement.defineFormula f <$> expression limit
  | .valuation =>
    name .valuationName >>= fun v =>
    equals >>= fun _ =>
    Statement.defineValuation v <$> braced assignment
  | .operator => Statement.defineOperator <$> operator
  | .opset =>
    name .opsetName >>= fun s =>
    equals >>= fun _ =>
    Statement.defineOpset s <$> braced (accept .operatorName Lexeme.operatorName?)

/-- What follows the verb of a statement. -/
def action (limit : Nat) : StatementVerb → Reader Statement
  | .define => accept .definition Lexeme.definitionKind? >>= definition limit
  | .evaluate =>
    name .formulaName >>= fun f =>
    keyword .under .under >>= fun _ =>
    Statement.evaluate f <$> name .valuationName
  | .adequate => Statement.adequate <$> name .opsetName

/-- A statement. -/
def statement (limit : Nat) : Reader Statement :=
  followedBy (accept .statement Lexeme.verb? >>= action limit) (symbol .semicolon .semicolon)

end Reader

/-- The statements read from a list of lexemes, and why no more could be read. -/
structure ProgramReading where
  statements : Program
  refusal? : Option Refusal
  deriving Repr, Inhabited

/-- Reads statements to the end of a list of lexemes. -/
def readProgram (limit : Nat) (ls : List Lexeme) : ProgramReading :=
  if ls = [] then
    ⟨[], none⟩
  else
    match Reader.statement limit ls with
    | .error e => ⟨[], some e⟩
    | .ok t =>
      have : t.rest.length < ls.length := t.shorter
      let r := readProgram limit t.rest
      ⟨t.value :: r.statements, r.refusal?⟩
termination_by ls.length
decreasing_by exact this

end PropBench
