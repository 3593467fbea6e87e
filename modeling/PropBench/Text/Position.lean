/-!
# Text — Position

Places in a text.  Lines and columns count from one; a line ends with a line feed, and a column
counts characters.

* `Position.after_append`: reading two texts one after the other.
-/

namespace PropBench

/-- A line and a column. -/
structure Position where
  line : Nat
  column : Nat
  deriving DecidableEq, Repr, Inhabited

namespace Position

/-- The beginning of a text. -/
def start : Position := ⟨1, 1⟩

/-- The place after one more character. -/
def next (p : Position) (c : Char) : Position :=
  if c = '\n' then ⟨p.line + 1, 1⟩ else ⟨p.line, p.column + 1⟩

/-- The place after a piece of text. -/
def after (p : Position) (text : List Char) : Position := text.foldl next p

@[simp] theorem after_nil (p : Position) : p.after [] = p := rfl

theorem after_append (p : Position) (s t : List Char) : p.after (s ++ t) = (p.after s).after t :=
  List.foldl_append

/-- A place comes before another in the text. -/
def isBefore (p q : Position) : Bool :=
  p.line < q.line || (p.line == q.line && p.column < q.column)

/-- A place as it is written in front of a message. -/
def text (p : Position) : String := s!"{p.line}:{p.column}"

end Position

end PropBench
