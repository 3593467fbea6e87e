import PropBench.Grammar.Expectation
import PropBench.Lexeme.Scan

/-!
# Parser — Basic

Parsers take a value off the front of a text, without lexemes in between: each of them passes the
blanks and comments in front of what it looks for, and matches characters itself.

* A parser that fails says what is wrong and where (`Failing`).  What is `recoverable` is left to
  the parser around it; what is `final` ends the parse (`Break`).
* `Parser.skip` passes blanks and comments.  `Parser.symbol`, `Parser.keyword` and
  `Parser.identifier` take what one lexeme is made of.
* `Parser.expect` makes a failure final, and says what was expected in its place.  `Parser.opt` and
  `Parser.separated` go on in front of what fails recoverably.
-/

namespace PropBench

/-- What a combinator fails at. -/
inductive Combinator where
  /-- A character of a kind. -/
  | satisfy
  /-- Certain characters. -/
  | tag
  /-- A value that is allowed. -/
  | verify
  /-- One of some alternatives. -/
  | alt
  deriving DecidableEq, Repr, Inhabited

/-- What is wrong at a place of a text. -/
inductive Trouble where
  /-- Something in words is expected. -/
  | expected (words : String)
  /-- A comment is never closed. -/
  | openComment
  /-- An expression is deeper than `limit`. -/
  | tooDeep (limit : Nat)
  /-- A combinator fails, and no parser around it has said what is expected. -/
  | combinator (c : Combinator)
  deriving DecidableEq, Repr, Inhabited

/-- What is wrong, with the text from there on. -/
structure Failing where
  text : List Char
  trouble : Trouble
  deriving DecidableEq, Repr, Inhabited

/-- How a parser ends without a value. -/
inductive Break where
  /-- The text is too short to say. -/
  | incomplete
  /-- Another parser may be tried. -/
  | recoverable (f : Failing)
  /-- No other parser is tried. -/
  | final (f : Failing)
  deriving DecidableEq, Repr, Inhabited

/-- A value taken off the front of a text, with the text behind it. -/
structure Parsed (α : Type) (cs : List Char) where
  value : α
  rest : List Char
  shorter : rest.length < cs.length

/-- A value that may take nothing off the front of a text, with the text behind it. -/
structure Passed (α : Type) (cs : List Char) where
  value : α
  rest : List Char
  noLonger : rest.length ≤ cs.length

/-- What takes a value off the front of a text, or breaks. -/
def Parser (α : Type) : Type := (cs : List Char) → Except Break (Parsed α cs)

/-- The same value, with a function applied. -/
def Parsed.map {α β : Type} {cs : List Char} (f : α → β) (t : Parsed α cs) : Parsed β cs :=
  ⟨f t.value, t.rest, t.shorter⟩

/-- What is taken off the end of a text is taken off the text. -/
def Parsed.within {α : Type} {cs ds : List Char} (h : ds.length ≤ cs.length) (t : Parsed α ds) :
    Parsed α cs :=
  ⟨t.value, t.rest, Nat.lt_of_lt_of_le t.shorter h⟩

/-- A value of which a part is taken off the front, and the others behind it. -/
def Passed.behind {α β : Type} {cs : List Char} (f : α → β) {ds : List Char}
    (h : ds.length < cs.length) (t : Passed α ds) : Parsed β cs :=
  ⟨f t.value, t.rest, Nat.lt_of_le_of_lt t.noLonger h⟩

/-- What is taken off a text has passed what it takes. -/
def Parsed.toPassed {α : Type} {cs : List Char} (t : Parsed α cs) : Passed α cs :=
  ⟨t.value, t.rest, Nat.le_of_lt t.shorter⟩

/-- A text that is passed without a step. -/
def Passed.stay {α : Type} (a : α) (cs : List Char) : Passed α cs := ⟨a, cs, Nat.le_refl _⟩

namespace Parser

variable {α β : Type}

/-- The parser of the same texts, with a function applied to the value. -/
protected def map (f : α → β) (p : Parser α) : Parser β := fun cs => (p cs).map (Parsed.map f)

/-- A parser, and behind it the one that its value asks for. -/
protected def bind (p : Parser α) (f : α → Parser β) : Parser β := fun cs =>
  match p cs with
  | .error b => .error b
  | .ok t => (f t.value t.rest).map (Parsed.within (Nat.le_of_lt t.shorter))

instance : Functor Parser where
  map := Parser.map

instance : Bind Parser where
  bind := Parser.bind

/-- The value of the first of two parsers, one behind the other. -/
def followedBy (p : Parser α) (q : Parser β) : Parser α := p >>= fun a => (fun _ => a) <$> q

/-! ### Blanks and comments -/

/-- A run of blanks, or a comment, at the front of a text. -/
def trivia? (cs : List Char) : Option (Piece × List Char) :=
  (blanks? cs).or <| (lineComment? cs).or <| blockComment? cs

theorem cuts_trivia {cs : List Char} {r : Piece × List Char} (h : trivia? cs = some r) :
    Cuts cs r := by
  simp only [trivia?, Option.or_eq_some_iff] at h
  rcases h with h | ⟨-, h | ⟨-, h⟩⟩
  · exact cuts_blanks h
  · exact cuts_lineComment h
  · exact cuts_blockComment h

/-- A text that begins as a block comment does. -/
def opensComment (cs : List Char) : Bool := ['/', '*'].isPrefixOf cs

/-- Passes blanks and comments; a comment that is never closed ends the parse. -/
def skip (cs : List Char) : Except Break (Passed Unit cs) :=
  match h : trivia? cs with
  | none => if opensComment cs then .error (.final ⟨cs, .openComment⟩) else .ok (.stay () cs)
  | some r =>
    have : r.2.length < cs.length := (cuts_trivia h).length_lt
    (skip r.2).map fun u => (u.behind id this).toPassed
termination_by cs.length
decreasing_by exact this

/-- A parser behind the blanks and comments at the front of a text. -/
def afterTrivia (p : Parser α) : Parser α := fun cs =>
  match skip cs with
  | .error b => .error b
  | .ok u => (p u.rest).map (Parsed.within u.noLonger)

/-! ### Failures -/

/-- A parser whose failure is final, where it says what was expected in its place. -/
def expect (what : Expectation) (p : Parser α) : Parser α := fun cs =>
  match p cs with
  | .error (.recoverable _) => .error (.final ⟨cs, .expected what.text⟩)
  | r => r

/-- What a parser takes, or nothing where it fails recoverably. -/
def opt (p : Parser α) (cs : List Char) : Except Break (Option (Parsed α cs)) :=
  match p cs with
  | .error (.recoverable _) => .ok none
  | .error b => .error b
  | .ok t => .ok (some t)

/-- The first of two parsers, or the second where the first fails recoverably. -/
def orElse (p q : Parser α) : Parser α := fun cs =>
  match opt p cs with
  | .error b => .error b
  | .ok (some t) => .ok t
  | .ok none => q cs

/-! ### Lexemes -/

/-- Takes a word, without blanks and comments in front. -/
def word : Parser String := fun cs =>
  match h : word? cs with
  | none => .error (.recoverable ⟨cs, .combinator .satisfy⟩)
  | some r => .ok ⟨String.ofList r.1.text, r.2, (cuts_word h).length_lt⟩

/-- Takes the characters of a symbol, without blanks and comments in front. -/
def tag (s : Symbol) : Parser Unit := fun cs =>
  if h : s.chars.isPrefixOf cs then
    .ok ⟨(), cs.drop s.chars.length, by
      have hpos := List.length_pos_iff.2 s.chars_ne_nil
      have hle := (List.isPrefixOf_iff_prefix.1 h).length_le
      rw [List.length_drop]
      omega⟩
  else
    .error (.recoverable ⟨cs, .combinator .tag⟩)

/-- Takes a symbol. -/
def symbol (s : Symbol) : Parser Unit := afterTrivia (tag s)

/-- Takes one of some keywords, in any case. -/
def keyword (ks : List Keyword) : Parser Keyword := afterTrivia fun cs =>
  match word cs with
  | .error b => .error b
  | .ok t =>
    match ks.find? fun k => k.text == t.value.toUpper with
    | none => .error (.recoverable ⟨cs, .combinator .tag⟩)
    | some k => .ok (t.map fun _ => k)

/-- Takes a word that is neither a keyword nor the wildcard. -/
def identifier : Parser String := afterTrivia fun cs =>
  match word cs with
  | .error b => .error b
  | .ok t =>
    if t.value == "_" || (Keyword.ofWord? t.value).isSome then
      .error (.recoverable ⟨cs, .combinator .verify⟩)
    else
      .ok t

/-- Takes a name. -/
def name (what : Expectation) : Parser String := expect what identifier

/-- Takes one of some symbols, where one of them stands, or else one of some keywords. -/
def connective (ss : List Symbol) (ks : List Keyword) : Parser Unit := afterTrivia fun cs =>
  match ss.find? fun s => s.chars.isPrefixOf cs with
  | some s => symbol s cs
  | none => ((fun _ => ()) <$> keyword ks : Parser Unit) cs

/-! ### Lists -/

/-- Takes a comma and a value, as long as both are there. -/
def more (item : Parser α) (cs : List Char) : Except Break (Passed (List α) cs) :=
  match opt (symbol .comma) cs with
  | .error b => .error b
  | .ok none => .ok (.stay [] cs)
  | .ok (some comma) =>
    match opt item comma.rest with
    | .error b => .error b
    | .ok none => .ok (.stay [] cs)
    | .ok (some t) =>
      have : t.rest.length < cs.length := Nat.lt_trans t.shorter comma.shorter
      (more item t.rest).map fun u => (u.behind (t.value :: ·) this).toPassed
termination_by cs.length
decreasing_by exact this

/-- Takes one value or more, with commas between. -/
def separated (item : Parser α) : Parser (List α) := fun cs =>
  match item cs with
  | .error b => .error b
  | .ok t => (more item t.rest).map fun u => u.behind (t.value :: ·) t.shorter

/-- Takes the values of a list and the symbol that closes it.  The list may be empty. -/
def closed (item : Parser α) (close : Symbol) (what : Expectation) : Parser (List α) := fun cs =>
  match opt (symbol close) cs with
  | .error b => .error b
  | .ok (some t) => .ok (t.map fun _ => [])
  | .ok none => followedBy (separated item) (expect what (symbol close)) cs

/-- Takes a list in braces. -/
def braced (item : Parser α) : Parser (List α) :=
  expect .openBrace (symbol .openBrace) >>= fun _ => closed item .closeBrace .commaOrBrace

/-- Takes a list in parentheses. -/
def parenthesized (what : Expectation) (item : Parser α) : Parser (List α) :=
  expect what (symbol .openParen) >>= fun _ => closed item .closeParen .commaOrParen

end Parser

end PropBench
