import PropBench.Logic.BooleanFunction

/-!
# Logic — Truth table

The table of an operator is a list of entries, tried in order.  A pattern entry matches the
inputs of its own length that agree with its cells, a blank cell agreeing with both values; an
otherwise entry matches every input.

* `TruthTable.firstMatch?` is the first entry to match an input, `TruthTable.value?` its value.
* `TruthTable.uncovered` counts the inputs of an arity that no entry matches.
* `TruthTable.function` is the function of a table, or the first input it has no entry for.
-/

namespace PropBench

/-- A cell of a pattern. -/
inductive Cell where
  | value (b : Bool)
  | blank
  deriving DecidableEq, Repr, Inhabited

/-- A cell agrees with a truth value. -/
def Cell.agrees : Cell → Bool → Bool
  | .value b, c => b == c
  | .blank, _ => true

/-- An entry of a table. -/
inductive Entry where
  | pattern (cells : List Cell) (value : Bool)
  | otherwise (value : Bool)
  deriving DecidableEq, Repr, Inhabited

namespace Entry

/-- The cells agree with an input, one by one; lists of different lengths do not. -/
def agree : List Cell → List Bool → Bool
  | [], [] => true
  | c :: cs, b :: bs => c.agrees b && agree cs bs
  | _, _ => false

/-- An entry matches an input. -/
def isMatch : Entry → List Bool → Bool
  | .pattern cells _, input => agree cells input
  | .otherwise _, _ => true

/-- The value an entry gives to the inputs it matches. -/
def value : Entry → Bool
  | .pattern _ b => b
  | .otherwise b => b

/-- Whether an entry matches every input. -/
def isOtherwise : Entry → Bool
  | .pattern _ _ => false
  | .otherwise _ => true

end Entry

/-- The entries of an operator's table, in the order they are tried. -/
structure TruthTable where
  entries : List Entry
  deriving DecidableEq, Repr, Inhabited

namespace TruthTable

/-- Whether a table has an entry that matches every input, so that it is total. -/
def hasOtherwise (t : TruthTable) : Bool := t.entries.any Entry.isOtherwise

/-- The index and the value of the first entry to match an input. -/
def firstMatch? (t : TruthTable) (input : List Bool) : Option (Nat × Bool) :=
  (t.entries.zipIdx.find? fun e => e.1.isMatch input).map fun e => (e.2, e.1.value)

/-- The value of a table at an input. -/
def value? (t : TruthTable) (input : List Bool) : Option Bool :=
  (t.firstMatch? input).map (·.2)

/-- The inputs of an arity that a table has no entry for. -/
structure Uncovered where
  count : Nat
  first? : Option (List Bool)
  deriving DecidableEq, Repr, Inhabited

/-- How many inputs of an arity no entry matches, and the first of them in the order of rows. -/
def uncovered (t : TruthTable) (arity : Nat) : Uncovered :=
  if t.hasOtherwise then
    ⟨0, none⟩
  else
    (rowCount arity).fold (fun row _ u =>
      match t.value? (inputAt arity row) with
      | some _ => u
      | none => ⟨u.count + 1, u.first?.or (some (inputAt arity row))⟩) ⟨0, none⟩

/-- The function of a table at an arity, or the first input in the order of rows that no entry
matches. -/
def function (t : TruthTable) (arity : Nat) : Except (List Bool) BooleanFunction :=
  BooleanFunction.ofFnM arity fun input =>
    match t.value? input with
    | some b => .ok b
    | none => .error input

end TruthTable

end PropBench
