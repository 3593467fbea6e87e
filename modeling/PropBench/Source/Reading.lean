import PropBench.Config
import PropBench.Grammar.Trace
import PropBench.Lexeme.Scan
import PropBench.Source.SyntaxError

/-!
# Source — Reading

From a text to a program.  The text is scanned, its lexemes are read, and a refusal is explained
by the scan: a reader that expects something behind the last lexeme finds there what the scan
stopped at.

* `parseProgram` is the program of a text, or the error in it.
* `parseText` also keeps the statements in front of an error.
* `Config.parse` is the program of a text under a configuration.  `Config.read` is its reading with
  the messages that are made meanwhile, and `Config.trace` has them once each and in order.
* `parseFront` reads a part of a program off the front of a text.
-/

namespace PropBench

namespace Scan

/-- The number of lexemes read when `left` are still to come. -/
def index (s : Scan) (left : List Lexeme) : Nat := s.lexemes.length - left.length

/-- The place where the lexemes `left` begin, or where the scan stopped if there are none. -/
def place (s : Scan) (left : List Lexeme) : Position :=
  Position.start.after (textOf (inFrontOf (s.index left) s.pieces))

/-- The error of a reader that expects something behind the last lexeme. -/
def errorAtEnd (s : Scan) (what : Expectation) : SyntaxError :=
  match s.stop with
  | .finished => .unexpectedEnd what
  | .openComment => .unterminatedComment (s.place [])
  | .stray c => .unknownLexeme (s.place []) c

/-- Looking for a lexeme when `left` are to come runs into a comment that is never closed. -/
def hitsOpenComment (s : Scan) (left : List Lexeme) : Bool :=
  left.isEmpty && s.stop == .openComment

/-- The error a refusal is reported as. -/
def explain (limit : Nat) (s : Scan) : Refusal → SyntaxError
  | .expected what [] => s.errorAtEnd what
  | .expected what (l :: ls) => .unexpected (s.place (l :: ls)) what l
  | .tooDeep place unread looked =>
    if looked && s.hitsOpenComment unread then
      .unterminatedComment (s.place [])
    else
      .tooDeep (s.place place) limit

end Scan

/-! ### Programs -/

/-- What is read of a text: its statements, up to the error if there is one. -/
structure TextReading where
  statements : Program
  error? : Option SyntaxError
  deriving Repr, Inhabited

/-- Why the lexemes of a scan are no program.  Those of a scan that stops early are followed by
something that begins no statement. -/
def refusalOf (s : Scan) (r : ProgramReading) : Option Refusal :=
  match r.refusal? with
  | some e => some e
  | none => if s.stop = .finished then none else some (.expected .statement [])

/-- Reads a text. -/
def parseText (limit : Nat) (source : String) : TextReading :=
  let s := scan source.toList
  let r := readProgram limit s.lexemes
  match refusalOf s r with
  | none => ⟨r.statements, none⟩
  | some e => ⟨r.statements, some (s.explain limit e)⟩

/-- The program of a text. -/
def parseProgram (limit : Nat) (source : String) : Except SyntaxError Program :=
  match (parseText limit source).error? with
  | none => .ok (parseText limit source).statements
  | some e => .error e

/-- The program of a text under a configuration. -/
def Config.parse (config : Config) (source : String) : Except SyntaxError Program :=
  parseProgram config.maxExpressionDepth source

/-- The text that bytes encode. -/
def decodeText (bytes : ByteArray) : Except SyntaxError String :=
  match String.fromUTF8? bytes with
  | some source => .ok source
  | none => .error .unreadable

/-! ### Traces -/

/-- A message of a trace: a place, and what kind of piece stands there. -/
abbrev Message := Position × PieceKind

/-- A line of a trace. -/
def traceLine (m : Message) : String := s!"{m.1.text}: {m.2.description}"

/-- What is told of a sighting. -/
def Scan.messages (s : Scan) : Sighting → List Message
  | .gap left => (gapBefore (s.index left) (locate .start s.pieces)).map fun p => (p.1, p.2.kind)
  | .lexeme left l => [(s.place left, .lexeme l)]

/-- Adds a message to others that are in order, unless it is among them. -/
def insertMessage (m : Message) : List Message → List Message
  | [] => [m]
  | n :: ns =>
    if m.1.isBefore n.1 then m :: n :: ns
    else if m = n then n :: ns
    else n :: insertMessage m ns

/-- Messages by line and column, each of them once. -/
def inOrder (ms : List Message) : List Message := ms.foldr insertMessage []

/-- Reads a text with traced readers: its program, or the error in it, and the messages that are
made meanwhile.  There are none, unless a trace is to be kept. -/
def Config.read (config : Config) (source : String) :
    Except SyntaxError Program × List Message :=
  let limit := config.maxExpressionDepth
  let s := scan source.toList
  let (r, sightings) := Traced.program limit s.lexemes
  let result := match refusalOf s r with
    | none => .ok r.statements
    | some e => .error (s.explain limit e)
  (result, if config.traceLexemes then sightings.flatMap s.messages else [])

/-- The trace of a text under a configuration: the messages of its reading, each of them once and in
order. -/
def Config.trace (config : Config) (source : String) : List Message :=
  inOrder (config.read source).2

/-! ### Parts of programs -/

/-- A value read off the front of a text, and the text after it with its place. -/
structure Front (α : Type) where
  value : α
  rest : List Char
  place : Position
  deriving Repr

/-- A value with what stands in a text behind the given pieces. -/
def Front.of {α : Type} (value : α) (source : String) (read : List Piece) : Front α :=
  ⟨value, source.toList.drop (textOf read).length, Position.start.after (textOf read)⟩

/-- Reads a value off the front of a text.  `looks` says that the reader looks for a lexeme
behind the value. -/
def parseFront {α : Type} (limit : Nat) (reader : Reader α) (looks : Bool) (source : String) :
    Except SyntaxError (Front α) :=
  let s := scan source.toList
  match reader s.lexemes with
  | .error e => .error (s.explain limit e)
  | .ok t =>
    if looks && s.hitsOpenComment t.rest then
      .error (.unterminatedComment (s.place []))
    else
      .ok (.of t.value source (through (s.index t.rest) s.pieces))

/-- Reads an expression, and looks whether a connective follows. -/
def parseExpression (limit : Nat) (source : String) : Except SyntaxError (Front Expr) :=
  parseFront limit (Reader.expression limit) true source

/-- Reads a statement. -/
def parseStatement (limit : Nat) (source : String) : Except SyntaxError (Front Statement) :=
  parseFront limit (Reader.statement limit) false source

/-- Reads blanks and comments. -/
def parseTrivia (source : String) : Except SyntaxError (Front Unit) :=
  let s := scan source.toList
  if s.hitsOpenComment s.lexemes then
    .error (.unterminatedComment (s.place []))
  else
    .ok (.of () source (inFrontOf 0 s.pieces))

end PropBench
