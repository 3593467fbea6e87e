import PropBench.Parser.Statement
import PropBench.Source.SyntaxError

/-!
# Parser — Report

From how a parser broke to an error in words, and from a text to a program.

* `Parser.describe`: what a message calls the front of a text.
* `Parser.report`: the error that is made of a break.  A break that does not say what is expected is
  reported in the most general words.
* `Parser.parse`: the program of a text, or the error in it.
-/

namespace PropBench

/-- An error in the words of a message. -/
inductive ParseError where
  /-- The character at `place` begins no lexeme. -/
  | unknownLexeme (place : Position) (c : Char)
  /-- The comment opened at `place` is never closed. -/
  | unterminatedComment (place : Position)
  /-- A lexeme stands where something else is expected. -/
  | unexpected (place : Position) (expected found : String)
  /-- The text ends where something is expected. -/
  | unexpectedEnd (expected : String)
  /-- The expression at `place` is deeper than `limit`. -/
  | tooDeep (place : Position) (limit : Nat)
  /-- The bytes of the text are not UTF-8. -/
  | unreadable
  deriving DecidableEq, Repr, Inhabited

/-- The error with what it speaks of in words. -/
def SyntaxError.inWords : SyntaxError → ParseError
  | .unknownLexeme p c => .unknownLexeme p c
  | .unterminatedComment p => .unterminatedComment p
  | .unexpected p what found => .unexpected p what.text found.description
  | .unexpectedEnd what => .unexpectedEnd what.text
  | .tooDeep p limit => .tooDeep p limit
  | .unreadable => .unreadable

namespace Parser

/-- What a message calls the front of a text, or the character that begins no lexeme. -/
def describe (cs : List Char) : Except Char String :=
  match word cs with
  | .ok t => .ok (Lexeme.ofWord t.value).description
  | .error _ =>
    match Symbol.atFront? cs with
    | some s => .ok (Lexeme.symbol s).description
    | none =>
      match cs with
      | c :: _ => .error c
      | [] => .ok "the end of input"

/-- The place in a source where the text at its end begins. -/
def position (source cs : List Char) : Position :=
  Position.start.after (source.take (source.length - cs.length))

/-- What is expected, if the trouble says so; else anything may be. -/
def expectedWords : Trouble → String
  | .expected words => words
  | _ => "a statement"

/-- The error of an unmet expectation at the front of a text. -/
def reportUnmet (source cs : List Char) (words : String) : ParseError :=
  match describe cs with
  | .ok found =>
    if cs = [] then .unexpectedEnd words else .unexpected (position source cs) words found
  | .error c => .unknownLexeme (position source cs) c

/-- The error of what is wrong in a text.  Its place is behind blanks and comments. -/
def reportFailing (source : List Char) (f : Failing) : ParseError :=
  if f.trouble = .openComment then
    .unterminatedComment (position source f.text)
  else
    let cs := match skip f.text with
      | .ok u => u.rest
      | .error _ => f.text
    match f.trouble with
    | .tooDeep limit => .tooDeep (position source cs) limit
    | trouble => reportUnmet source cs (expectedWords trouble)

/-- The error that is made of a break. -/
def report (source : List Char) : Break → ParseError
  | .incomplete => .unexpectedEnd "more input"
  | .recoverable f | .final f => reportFailing source f

/-- The program of a text, or the error in it. -/
def parse (limit : Nat) (source : String) : Except ParseError Program :=
  (program limit source.toList).mapError (report source.toList)

end Parser

end PropBench
