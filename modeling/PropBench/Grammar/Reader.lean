import PropBench.Grammar.Expectation

/-!
# Grammar — Reader

Readers take a value off the front of a list of lexemes, and at least one lexeme with it
(`Taken.shorter`), which is why repetition ends.

* `Reader.accept` takes one lexeme; `symbol`, `keyword` and `name` are made from it.
* `separated` repeats a reader, with commas between; `closed` is a list up to its closing symbol.
* Two readers follow each other by `>>=`.
-/

namespace PropBench

/-- A value taken off the front of a list of lexemes. -/
structure Taken (α : Type) (ls : List Lexeme) where
  value : α
  rest : List Lexeme
  shorter : rest.length < ls.length

/-- What takes a value off the front of a list of lexemes, or says why there is none. -/
def Reader (α : Type) : Type := (ls : List Lexeme) → Except Refusal (Taken α ls)

namespace Taken

variable {α β : Type} {ls : List Lexeme}

/-- The same lexemes taken, for another value. -/
def map (f : α → β) (t : Taken α ls) : Taken β ls := ⟨f t.value, t.rest, t.shorter⟩

/-- A value that stands for the first lexeme alone. -/
def one (a : α) (l : Lexeme) (ls : List Lexeme) : Taken α (l :: ls) :=
  ⟨a, ls, Nat.lt_succ_self _⟩

/-- Taken off what is behind one lexeme, so off the list. -/
def behind (l : Lexeme) (t : Taken α ls) : Taken α (l :: ls) :=
  ⟨t.value, t.rest, Nat.lt_succ_of_lt t.shorter⟩

/-- Taken off the rest of a list, so off the list. -/
def after {ms : List Lexeme} (h : ms.length < ls.length) (t : Taken α ms) : Taken α ls :=
  ⟨t.value, t.rest, Nat.lt_trans t.shorter h⟩

end Taken

namespace Reader

variable {α β : Type}

/-- Reads what `r` reads, and changes the value.  A refusal stays as it is. -/
protected def map (f : α → β) (r : Reader α) : Reader β := fun ls => (r ls).map (Taken.map f)

/-- Two readers one after the other, the second chosen by the value of the first. -/
protected def bind (r : Reader α) (f : α → Reader β) : Reader β := fun ls =>
  match r ls with
  | .error e => .error e
  | .ok t => (f t.value t.rest).map (Taken.after t.shorter)

instance : Functor Reader where
  map := Reader.map

instance : Bind Reader where
  bind := Reader.bind

/-- The value of the first of two readers, one after the other. -/
def followedBy (r : Reader α) (s : Reader β) : Reader α :=
  r >>= fun a => (fun _ => a) <$> s

/-- Takes one lexeme that `f` gives a value to. -/
def accept (what : Expectation) (f : Lexeme → Option α) : Reader α
  | [] => .error (.expected what [])
  | l :: ls =>
    match f l with
    | some a => .ok (.one a l ls)
    | none => .error (.expected what (l :: ls))

/-- Takes a symbol. -/
def symbol (s : Symbol) (what : Expectation) : Reader Unit :=
  accept what fun l => if l = .symbol s then some () else none

/-- Takes a keyword. -/
def keyword (k : Keyword) (what : Expectation) : Reader Unit :=
  accept what fun l => if l = .keyword k then some () else none

/-- Takes a name. -/
def name (what : Expectation) : Reader String :=
  accept what fun
    | .name n => some n
    | _ => none

/-- Takes one value and, as long as a comma follows, another. -/
def separated (item : Reader α) (ls : List Lexeme) : Except Refusal (Taken (List α) ls) :=
  match item ls with
  | .error e => .error e
  | .ok ⟨a, .symbol .comma :: rest, shorter⟩ =>
    have : rest.length < ls.length := Nat.lt_of_succ_lt shorter
    (separated item rest).map fun t => (t.map (a :: ·)).after this
  | .ok t => .ok (t.map fun a => [a])
termination_by ls.length
decreasing_by exact this

/-- Takes the values of a list and the symbol that closes it.  The list may be empty. -/
def closed (item : Reader α) (close : Symbol) (what : Expectation) : Reader (List α)
  | .symbol s :: ls =>
    if s = close then
      .ok (.one [] (.symbol s) ls)
    else
      followedBy (separated item) (symbol close what) (.symbol s :: ls)
  | ls => followedBy (separated item) (symbol close what) ls

/-- Takes a list in braces. -/
def braced (item : Reader α) : Reader (List α) :=
  symbol .openBrace .openBrace >>= fun _ => closed item .closeBrace .commaOrBrace

/-- Takes a list in parentheses. -/
def parenthesized (what : Expectation) (item : Reader α) : Reader (List α) :=
  symbol .openParen what >>= fun _ => closed item .closeParen .commaOrParen

end Reader

end PropBench
