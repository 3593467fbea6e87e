import PropBench.Grammar.Statement

/-!
# Grammar — Trace

What readers come across.  A look for a lexeme passes the blanks and comments in front of it, and
shows the lexeme if it finds one that it looks for.  A lexeme may be looked at many times, as an
attempt that fails is followed by the next, and one that succeeds may be made again.

* `Traced` is a reader with what it comes across.  The readers of `Reader` are traced one by one,
  under the same names.
* `Traced.program`: the reading of a program, with what it comes across.
-/

namespace PropBench

/-- Something that a reader comes across.  Places are given by the lexemes from there on. -/
inductive Sighting where
  /-- The blanks and comments in front of the place `left`. -/
  | gap (left : List Lexeme)
  /-- A lexeme found at the place `left`. -/
  | lexeme (left : List Lexeme) (found : Lexeme)
  deriving DecidableEq, Repr, Inhabited

/-! ### Looks -/

/-- What is found, if the next lexeme is looked for. -/
abbrev Look := Lexeme → Option Lexeme

namespace Look

/-- The look for a symbol. -/
def symbol (s : Symbol) : Look := fun l => if l = .symbol s then some (.symbol s) else none

/-- The look for one of some keywords. -/
def keyword (ks : List Keyword) : Look
  | .keyword k => (ks.find? (· == k)).map .keyword
  | _ => none

/-- The look for a name. -/
def name : Look
  | .name n => some (.name n)
  | _ => none

/-- The look for a wildcard. -/
def wildcard : Look
  | .wildcard => some .wildcard
  | _ => none

/-- The looks for a truth value. -/
def truthValue : List Look := [keyword [.truth, .falsity], symbol .one, symbol .zero]

/-- The looks for a binary connective, the loosest first. -/
def connective : List Look :=
  [symbol .doubleArrow, keyword [.iff], symbol .arrow, keyword [.implies, .hence], symbol .bar,
    keyword [.or], symbol .ampersand, keyword [.and]]

/-- The looks for a negation. -/
def negation : List Look := [symbol .bang, symbol .tilde, keyword [.not]]

/-- The looks for the name of an operator in an operator set. -/
def operatorName : List Look := [keyword [.not, .and, .or, .implies, .hence, .iff], name]

end Look

/-- What looks come across that are made one after the other, until one finds something. -/
def sightingsOf : List Look → List Lexeme → List Sighting
  | [], _ => []
  | look :: looks, ls =>
    .gap ls ::
      match ls.head?.bind look with
      | some l => [.lexeme ls l]
      | none => sightingsOf looks ls

/-! ### Traced readers -/

/-- A reader with what it comes across in a list of lexemes. -/
structure Traced (α : Type) where
  reader : Reader α
  sightings : List Lexeme → List Sighting

namespace Traced

variable {α β : Type}

/-- What is come across behind a value, if there is one. -/
def behind {ls : List Lexeme} (r : Except Refusal (Taken α ls))
    (f : Taken α ls → List Sighting) : List Sighting :=
  match r with
  | .ok t => f t
  | .error _ => []

/-- The values change, the sightings do not. -/
protected def map (f : α → β) (r : Traced α) : Traced β := ⟨f <$> r.reader, r.sightings⟩

/-- The sightings of the second reader stand behind those of the first. -/
protected def bind (r : Traced α) (f : α → Traced β) : Traced β where
  reader := r.reader >>= fun a => (f a).reader
  sightings ls := r.sightings ls ++ behind (r.reader ls) fun t => (f t.value).sightings t.rest

instance : Functor Traced where
  map := Traced.map

instance : Bind Traced where
  bind := Traced.bind

/-- Two readers one after the other, with the value of the first. -/
def followedBy (r : Traced α) (s : Traced β) : Traced α :=
  r >>= fun a => (fun _ => a) <$> s

/-- Takes one lexeme that `f` gives a value to, after the looks for it in order. -/
def accept (what : Expectation) (f : Lexeme → Option α) (looks : List Look) : Traced α :=
  ⟨.accept what f, sightingsOf looks⟩

/-- Takes a symbol, by one look. -/
def symbol (s : Symbol) (what : Expectation) : Traced Unit :=
  ⟨.symbol s what, sightingsOf [.symbol s]⟩

/-- Takes a keyword, by one look. -/
def keyword (k : Keyword) (what : Expectation) : Traced Unit :=
  ⟨.keyword k what, sightingsOf [.keyword [k]]⟩

/-- Takes a name, by one look. -/
def name (what : Expectation) : Traced String := ⟨.name what, sightingsOf [.name]⟩

/-- What a list comes across: behind each value a comma is looked for. -/
def sightingsOfSeparated (item : Traced α) (ls : List Lexeme) : List Sighting :=
  item.sightings ls ++
    match item.reader ls with
    | .error _ => []
    | .ok ⟨_, rest, shorter⟩ =>
      sightingsOf [.symbol .comma] rest ++
        match rest, shorter with
        | .symbol .comma :: rest, shorter =>
          have : rest.length < ls.length := Nat.lt_of_succ_lt shorter
          sightingsOfSeparated item rest
        | _, _ => []
termination_by ls.length
decreasing_by exact this

/-- Items with commas between them, at least one. -/
def separated (item : Traced α) : Traced (List α) :=
  ⟨.separated item.reader, sightingsOfSeparated item⟩

/-- The closing symbol is looked for at once, and behind the list if it is not there. -/
def closed (item : Traced α) (close : Symbol) (what : Expectation) : Traced (List α) where
  reader := .closed item.reader close what
  sightings ls := sightingsOf [.symbol close] ls ++
    if ls.head? = some (.symbol close) then []
    else (followedBy (separated item) (symbol close what)).sightings ls

/-- Items in braces, which may be none. -/
def braced (item : Traced α) : Traced (List α) :=
  symbol .openBrace .openBrace >>= fun _ => closed item .closeBrace .commaOrBrace

/-- Items in parentheses, which may be none. -/
def parenthesized (what : Expectation) (item : Traced α) : Traced (List α) :=
  symbol .openParen what >>= fun _ => closed item .closeParen .commaOrParen

/-! ### Expressions -/

/-- What the rest of a chain comes across: behind each operand a connective is looked for. -/
def sightingsOfLinks (operand : Traced Operand) (ls : List Lexeme) : List Sighting :=
  sightingsOf Look.connective ls ++
    match ls with
    | [] => []
    | l :: ms =>
      if l.binary?.isSome then
        operand.sightings ms ++
          match operand.reader ms with
          | .error _ => []
          | .ok t =>
            have : t.rest.length < (l :: ms).length := Nat.lt_succ_of_lt t.shorter
            sightingsOfLinks operand t.rest
      else
        []
termination_by ls.length
decreasing_by exact this

/-- A chain of operands.  Nothing is looked for behind an operand that is refused. -/
def grouped (limit : Nat) (operand : Traced Operand) : Traced Operand where
  reader := .grouped limit operand.reader
  sightings ls := operand.sightings ls ++
    behind (operand.reader ls) fun t => sightingsOfLinks operand t.rest

/-- What a row of negations comes across, the look behind the last of them included. -/
def sightingsOfNegations : List Lexeme → List Sighting
  | [] => sightingsOf Look.negation []
  | l :: ls =>
    sightingsOf Look.negation (l :: ls) ++ if l.isNegation then sightingsOfNegations ls else []

/-- A row of negations and the primary behind it, which a row that is too long hides. -/
def negated (limit : Nat) (primary : Traced Operand) : Traced Operand where
  reader := .negated limit primary.reader
  sightings ls := sightingsOfNegations ls ++
    if Reader.negations ls < limit then primary.sightings (ls.drop (Reader.negations ls)) else []

/-- A chain behind its opening parenthesis. -/
def inParens (chain : Traced Operand) : Traced Operand :=
  followedBy chain (symbol .closeParen .closeParen)

/-- The arguments of an application, behind their opening parenthesis. -/
def arguments (chain : Traced Operand) : Traced (List Operand) :=
  closed chain .closeParen .commaOrParen

/-- What an application, or a variable, comes across behind its name.  The opening parenthesis is
looked for again where the arguments are read. -/
def sightingsOfArguments (chain? : Option (Traced Operand)) (ls : List Lexeme) : List Sighting :=
  sightingsOf [.symbol .openParen] ls ++
    match ls, chain? with
    | .symbol .openParen :: ms, some chain =>
      sightingsOf [.symbol .openParen] ls ++ (arguments chain).sightings ms
    | _, _ => []

/-- What a primary comes across behind its first lexeme. -/
def sightingsOfPrimary (chain? : Option (Traced Operand)) : List Lexeme → List Sighting
  | .symbol .openParen :: ls =>
    match chain? with
    | none => []
    | some chain => (inParens chain).sightings ls
  | .symbol .atSign :: ls => (name .formulaName).sightings ls
  | .name _ :: ls => sightingsOfArguments chain? ls
  | _ => []

/-- A primary.  Three looks tell what it begins with. -/
def primary (limit : Nat) (chain? : Option (Traced Operand)) : Traced Operand where
  reader := .primary limit (chain?.map reader)
  sightings ls :=
    sightingsOf [.symbol .openParen, .symbol .atSign, .name] ls ++ sightingsOfPrimary chain? ls

/-- A chain with at most so many chains inside one another, traced along the reader's recursion. -/
def chain (limit : Nat) : Nat → Traced Operand
  | 0 => grouped limit (negated limit (primary limit none))
  | nesting + 1 => grouped limit (negated limit (primary limit (some (chain limit nesting))))

/-- An expression within the limit, traced as the chain it is. -/
def expression (limit : Nat) : Traced Expr := Operand.expr <$> chain limit limit

/-! ### Statements -/

/-- A truth value.  The words are looked for before the digits. -/
def truthValue : Traced Bool := accept .truthValue Lexeme.truthValue? Look.truthValue

/-- The sign between a name and its definition. -/
def equals : Traced Unit := symbol .equals .equals

/-- A variable with its truth value. -/
def assignment : Traced (String × Bool) :=
  name .variableName >>= fun x =>
  symbol .colon .colon >>= fun _ =>
  (fun b => (x, b)) <$> truthValue

/-- The truth value behind an arrow. -/
def image : Traced Bool := symbol .arrow .arrow >>= fun _ => truthValue

/-- A cell of a pattern.  The wildcard is looked for first. -/
def cell : Traced Cell := accept .cell Lexeme.cell? (.wildcard :: Look.truthValue)

/-- An entry with a pattern. -/
def patternEntry : Traced Entry :=
  parenthesized .entry cell >>= fun cells => Entry.pattern cells <$> image

/-- An entry for all inputs that are left. -/
def otherwiseEntry : Traced Entry :=
  keyword .otherwise .entry >>= fun _ => Entry.otherwise <$> image

/-- An otherwise entry is looked for first. -/
def entry : Traced Entry where
  reader := .entry
  sightings
    | .keyword .otherwise :: ls => otherwiseEntry.sightings (.keyword .otherwise :: ls)
    | ls => sightingsOf [.keyword [.otherwise]] ls ++ patternEntry.sightings ls

/-- The definition of an operator, behind the word for its kind. -/
def operator : Traced Operator :=
  name .operatorName >>= fun o =>
  parenthesized .openParen (name .parameterName) >>= fun parameters =>
  equals >>= fun _ =>
  (fun entries => ⟨o, parameters, ⟨entries⟩⟩) <$> braced entry

/-- A definition behind the word for its kind. -/
def definition (limit : Nat) : DefinitionKind → Traced Statement
  | .vars => Statement.defineVariables <$> separated (name .variableName)
  | .formula =>
    name .formulaName >>= fun f =>
    equals >>= fun _ =>
    Statement.defineFormula f <$> expression limit
  | .valuation =>
    name .valuationName >>= fun v =>
    equals >>= fun _ =>
    Statement.defineValuation v <$> braced assignment
  | .operator => Statement.defineOperator <$> operator
  | .opset =>
    name .opsetName >>= fun s =>
    equals >>= fun _ =>
    Statement.defineOpset s <$>
      braced (accept .operatorName Lexeme.operatorName? Look.operatorName)

/-- The word for the kind of a definition.  One look serves all five. -/
def definitionKind : Traced DefinitionKind :=
  accept .definition Lexeme.definitionKind?
    [.keyword [.variableKind, .formulaKind, .valuationKind, .operatorKind, .opsetKind]]

/-- A statement behind its verb. -/
def action (limit : Nat) : StatementVerb → Traced Statement
  | .define => definitionKind >>= definition limit
  | .evaluate =>
    name .formulaName >>= fun f =>
    keyword .under .under >>= fun _ =>
    Statement.evaluate f <$> name .valuationName
  | .adequate => Statement.adequate <$> name .opsetName

/-- The verb of a statement.  One look serves all three. -/
def verb : Traced StatementVerb :=
  accept .statement Lexeme.verb? [.keyword [.define, .evaluate, .adequate]]

/-- A statement up to its semicolon. -/
def statement (limit : Nat) : Traced Statement :=
  followedBy (verb >>= action limit) (symbol .semicolon .semicolon)

/-- Reads statements to the end of a list of lexemes.  In front of each statement, and behind the
last, blanks and comments are passed. -/
def program (limit : Nat) (ls : List Lexeme) : ProgramReading × List Sighting :=
  if ls = [] then
    (⟨[], none⟩, [.gap []])
  else
    let sightings := .gap ls :: (statement limit).sightings ls
    match (statement limit).reader ls with
    | .error e => (⟨[], some e⟩, sightings)
    | .ok t =>
      have : t.rest.length < ls.length := t.shorter
      let r := program limit t.rest
      (⟨t.value :: r.1.statements, r.1.refusal?⟩, sightings ++ r.2)
termination_by ls.length
decreasing_by exact this

end Traced

end PropBench
