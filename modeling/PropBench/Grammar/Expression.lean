import PropBench.Grammar.Reader
import PropBench.Program.Expr

/-!
# Grammar — Expression

Reading expressions.  A chain is a list of operands with binary connectives between; an operand
is a row of negations and a primary; a primary is a variable, a reference, an application, or a
chain in parentheses.

* A chain is grouped with a stack of operands and a stack of connectives (`Stacks`): before a
  connective is put on its stack, those that bind more tightly are taken off and applied.
* An expression may be at most `limit` deep, and parentheses and applications may be nested at
  most `limit` deep.  `chain` recurses on the nesting still allowed.
-/

namespace PropBench

/-- The binary connective a lexeme stands for. -/
def Lexeme.binary? : Lexeme → Option Binary
  | .symbol .doubleArrow | .keyword .iff => some .iff
  | .symbol .arrow | .keyword .implies | .keyword .hence => some .implies
  | .symbol .bar | .keyword .or => some .or
  | .symbol .ampersand | .keyword .and => some .and
  | _ => none

/-- A lexeme that stands for negation. -/
def Lexeme.isNegation : Lexeme → Bool
  | .symbol .bang | .symbol .tilde | .keyword .not => true
  | _ => false

/-- An expression with its depth. -/
structure Operand where
  expr : Expr
  depth : Nat
  deriving Repr, Inhabited

namespace Operand

/-- An expression without parts. -/
def leaf (e : Expr) : Operand := ⟨e, 1⟩

/-- Two operands with a connective between them. -/
def combine (c : Binary) (l r : Operand) : Operand :=
  ⟨.binary c l.expr r.expr, 1 + max l.depth r.depth⟩

/-- An operand behind `n` negations. -/
def negate (n : Nat) (o : Operand) : Operand := ⟨o.expr.negate n, o.depth + n⟩

/-- An operator applied to operands. -/
def apply (operator : String) (args : List Operand) : Operand :=
  ⟨.apply operator (args.map expr), 1 + (args.map depth).foldr max 0⟩

end Operand

/-! ### Grouping a chain -/

/-- Operands and the connectives between them that are not yet applied, the latest first. -/
structure Stacks where
  operands : List Operand
  connectives : List Binary
  deriving Repr, Inhabited

namespace Stacks

/-- A connective that stands before another takes their common operand. -/
def takesFirst (before after : Binary) : Bool :=
  after.binding < before.binding || (after.binding == before.binding && !after.groupsRight)

/-- Applies a connective to the two latest operands. -/
def reduce (c : Binary) : List Operand → List Operand
  | r :: l :: operands => .combine c l r :: operands
  | _ => []

/-- Applies the waiting connectives that take their operands before `c` does. -/
def settle (c : Binary) (operands : List Operand) : List Binary → Stacks
  | [] => ⟨operands, []⟩
  | d :: waiting =>
    if takesFirst d c then settle c (reduce d operands) waiting else ⟨operands, d :: waiting⟩

/-- Adds a connective and the operand to its right. -/
def push (s : Stacks) (c : Binary) (o : Operand) : Stacks :=
  let t := settle c s.operands s.connectives
  ⟨o :: t.operands, c :: t.connectives⟩

/-- Applies all waiting connectives. -/
def collapse (s : Stacks) : List Operand := s.connectives.foldl (fun os c => reduce c os) s.operands

end Stacks

namespace Reader

/-- The rest of a chain, with the lexemes after it. -/
structure Links (ls : List Lexeme) where
  grouping : Stacks
  rest : List Lexeme
  noLonger : rest.length ≤ ls.length

/-- Reads connectives and operands as long as a connective follows. -/
def links (operand : Reader Operand) (s : Stacks) (ls : List Lexeme) :
    Except Refusal (Links ls) :=
  match ls with
  | [] => .ok ⟨s, [], Nat.le_refl _⟩
  | l :: ms =>
    match l.binary? with
    | none => .ok ⟨s, l :: ms, Nat.le_refl _⟩
    | some c =>
      match operand ms with
      | .error e => .error e
      | .ok t =>
        have : t.rest.length < (l :: ms).length := Nat.lt_succ_of_lt t.shorter
        (links operand (s.push c t.value) t.rest).map fun k =>
          ⟨k.grouping, k.rest, Nat.le_trans k.noLonger (Nat.le_of_lt this)⟩
termination_by ls.length
decreasing_by exact this

/-- A chain of operands, grouped. -/
def grouped (limit : Nat) (operand : Reader Operand) : Reader Operand := fun ls =>
  match operand ls with
  | .error e => .error e
  | .ok first =>
    match links operand ⟨[first.value], []⟩ first.rest with
    | .error e => .error e
    | .ok k =>
      match k.grouping.collapse with
      | [] => .error (.expected .expression ls)
      | o :: _ =>
        if o.depth ≤ limit then
          .ok ⟨o, k.rest, Nat.lt_of_le_of_lt k.noLonger first.shorter⟩
        else
          .error (.tooDeep ls k.rest true)

/-- The number of negations a list of lexemes begins with. -/
def negations (ls : List Lexeme) : Nat := (ls.takeWhile Lexeme.isNegation).length

theorem length_drop_negations (ls : List Lexeme) :
    (ls.drop (negations ls)).length ≤ ls.length := by
  simp

/-- A row of negations and a primary. -/
def negated (limit : Nat) (primary : Reader Operand) : Reader Operand := fun ls =>
  let n := negations ls
  if n < limit then
    match primary (ls.drop n) with
    | .error e => .error e
    | .ok t =>
      let o := t.value.negate n
      if o.depth ≤ limit then
        .ok ⟨o, t.rest, Nat.lt_of_lt_of_le t.shorter (length_drop_negations ls)⟩
      else
        .error (.tooDeep ls t.rest false)
  else
    .error (.tooDeep ls (ls.drop n) true)

/-- A chain in parentheses, the opening one already taken. -/
def inParens (chain : Reader Operand) : Reader Operand :=
  followedBy chain (symbol .closeParen .closeParen)

/-- The arguments of an application, the opening parenthesis already taken. -/
def arguments (chain : Reader Operand) : Reader (List Operand) :=
  closed chain .closeParen .commaOrParen

/-- A primary.  `chain?` reads what stands in parentheses, unless they are nested too deep. -/
def primary (limit : Nat) (chain? : Option (Reader Operand)) : Reader Operand
  | .symbol .openParen :: ls =>
    match chain? with
    | none => .error (.tooDeep (.symbol .openParen :: ls) ls false)
    | some chain => (inParens chain ls).map (Taken.behind (.symbol .openParen))
  | .symbol .atSign :: ls =>
    (name .formulaName ls).map fun t =>
      (t.map fun f => .leaf (.formula f)).behind (.symbol .atSign)
  | .name o :: .symbol .openParen :: ls =>
    match chain? with
    | none => .error (.tooDeep (.symbol .openParen :: ls) ls false)
    | some chain =>
      match arguments chain ls with
      | .error e => .error e
      | .ok t =>
        let a := Operand.apply o t.value
        if a.depth ≤ limit then
          .ok (((t.map fun _ => a).behind (.symbol .openParen)).behind (.name o))
        else
          .error (.tooDeep (.name o :: .symbol .openParen :: ls) t.rest false)
  | .name x :: ls => .ok (.one (.leaf (.var x)) (.name x) ls)
  | ls => .error (.expected .expression ls)

/-- A chain within which parentheses and applications may be nested `nesting` deep. -/
def chain (limit : Nat) : Nat → Reader Operand
  | 0 => grouped limit (negated limit (primary limit none))
  | nesting + 1 => grouped limit (negated limit (primary limit (some (chain limit nesting))))

/-- An expression of a limited depth. -/
def expression (limit : Nat) : Reader Expr := Operand.expr <$> chain limit limit

end Reader

end PropBench
