import PropBench.Lexeme.Basic
import PropBench.Text.Blank
import PropBench.Text.Position

/-!
# Lexeme — Scan

Cutting a text into pieces: runs of blanks, comments and lexemes, each as long as it can be.  The
scan of a text is its pieces together with the text that begins no piece (`Scan.rest`), which
is empty, opens a comment that is never closed, or starts with a stray character (`Stop`).

* `scan_text`: the pieces and the rest, written one after the other, are the text.
* `Scan.lexemes`: the lexemes among the pieces.
* `inFrontOf`, `through`: the pieces in front of a lexeme, and up to the end of one.
* `locate`: the pieces with their places.
* `gapBefore`: the blanks and comments right in front of a lexeme.
-/

namespace PropBench

/-- What a piece of a text is. -/
inductive PieceKind where
  | whitespace
  | lineComment
  | blockComment
  | lexeme (l : Lexeme)
  deriving DecidableEq, Repr, Inhabited

/-- What a trace calls a piece of the kind. -/
def PieceKind.description : PieceKind → String
  | .whitespace => "whitespace"
  | .lineComment => "line comment"
  | .blockComment => "block comment"
  | .lexeme l => l.description

/-- A piece of a text. -/
structure Piece where
  kind : PieceKind
  text : List Char
  deriving DecidableEq, Repr, Inhabited

namespace Piece

/-- The lexeme a piece is, if it is one. -/
def lexeme? (p : Piece) : Option Lexeme :=
  match p.kind with
  | .lexeme l => some l
  | _ => none

/-- Whether a piece counts for the readers. -/
def isLexeme (p : Piece) : Bool := p.lexeme?.isSome

end Piece

/-! ### The first piece of a text -/

/-- A run of blanks. -/
def blanks? (cs : List Char) : Option (Piece × List Char) :=
  match cs.takeWhile isBlank with
  | [] => none
  | text => some (⟨.whitespace, text⟩, cs.dropWhile isBlank)

/-- A comment up to the end of the line. -/
def lineComment? : List Char → Option (Piece × List Char)
  | '/' :: '/' :: cs =>
    some (⟨.lineComment, '/' :: '/' :: cs.takeWhile (· != '\n')⟩, cs.dropWhile (· != '\n'))
  | _ => none

/-- The text up to the end of a block comment, and the text after it. -/
def closing? : List Char → Option (List Char × List Char)
  | '*' :: '/' :: cs => some (['*', '/'], cs)
  | c :: cs => (closing? cs).map fun r => (c :: r.1, r.2)
  | [] => none

/-- A block comment.  Comments do not nest. -/
def blockComment? : List Char → Option (Piece × List Char)
  | '/' :: '*' :: cs => (closing? cs).map fun r => (⟨.blockComment, '/' :: '*' :: r.1⟩, r.2)
  | _ => none

/-- A character that may begin a word. -/
def isWordStart (c : Char) : Bool := c.isAlpha || c == '_'

/-- A character that may stand in a word. -/
def isWordChar (c : Char) : Bool := c.isAlphanum || c == '_'

/-- A word: a keyword, a name or the wildcard. -/
def word? : List Char → Option (Piece × List Char)
  | c :: cs =>
    if isWordStart c then
      let text := c :: cs.takeWhile isWordChar
      some (⟨.lexeme (.ofWord (String.ofList text)), text⟩, cs.dropWhile isWordChar)
    else
      none
  | [] => none

/-- A symbol. -/
def symbol? (cs : List Char) : Option (Piece × List Char) :=
  (Symbol.atFront? cs).map fun s => (⟨.lexeme (.symbol s), s.chars⟩, cs.drop s.chars.length)

/-- The first piece of a text, and the text after it. -/
def firstPiece? (cs : List Char) : Option (Piece × List Char) :=
  (blanks? cs).or <| (lineComment? cs).or <| (blockComment? cs).or <| (word? cs).or <| symbol? cs

/-- The first piece and the text after it are the text, and the piece is not empty. -/
def Cuts (cs : List Char) (r : Piece × List Char) : Prop := r.1.text ≠ [] ∧ r.1.text ++ r.2 = cs

theorem cuts_blanks {cs : List Char} {r : Piece × List Char} (h : blanks? cs = some r) :
    Cuts cs r := by
  unfold blanks? at h
  split at h
  · cases h
  · next hne =>
    cases h
    exact ⟨hne, List.takeWhile_append_dropWhile⟩

theorem cuts_lineComment {cs : List Char} {r : Piece × List Char} (h : lineComment? cs = some r) :
    Cuts cs r := by
  unfold lineComment? at h
  split at h
  · cases h
    exact ⟨by simp, by simp⟩
  · cases h

/-- The end of a comment, and what stands before it, is a beginning of the text. -/
theorem closing_append {cs : List Char} {r : List Char × List Char} (h : closing? cs = some r) :
    r.1 ++ r.2 = cs := by
  fun_induction closing? cs generalizing r with
  | case1 cs => cases h; rfl
  | case2 c cs _ ih =>
    obtain ⟨u, hu, rfl⟩ := Option.map_eq_some_iff.1 h
    simp [ih hu]
  | case3 => cases h

theorem cuts_blockComment {cs : List Char} {r : Piece × List Char}
    (h : blockComment? cs = some r) : Cuts cs r := by
  unfold blockComment? at h
  split at h
  · obtain ⟨u, hu, rfl⟩ := Option.map_eq_some_iff.1 h
    exact ⟨by simp, by simp [closing_append hu]⟩
  · cases h

theorem cuts_word {cs : List Char} {r : Piece × List Char} (h : word? cs = some r) :
    Cuts cs r := by
  unfold word? at h
  split at h
  · split at h
    · cases h
      exact ⟨by simp, by simp⟩
    · cases h
  · cases h

theorem cuts_symbol {cs : List Char} {r : Piece × List Char} (h : symbol? cs = some r) :
    Cuts cs r := by
  obtain ⟨s, hs, rfl⟩ := Option.map_eq_some_iff.1 h
  have hp : s.chars.isPrefixOf cs = true := by
    simpa using List.find?_some hs
  obtain ⟨t, rfl⟩ := List.isPrefixOf_iff_prefix.1 hp
  exact ⟨s.chars_ne_nil, by simp⟩

/-- A piece is a beginning of the text, and not an empty one. -/
theorem cuts_firstPiece {cs : List Char} {r : Piece × List Char} (h : firstPiece? cs = some r) :
    Cuts cs r := by
  simp only [firstPiece?, Option.or_eq_some_iff] at h
  rcases h with h | ⟨-, h | ⟨-, h | ⟨-, h | ⟨-, h⟩⟩⟩⟩
  · exact cuts_blanks h
  · exact cuts_lineComment h
  · exact cuts_blockComment h
  · exact cuts_word h
  · exact cuts_symbol h

/-- Each piece leaves less text, so that the scan ends. -/
theorem Cuts.length_lt {cs : List Char} {r : Piece × List Char} (h : Cuts cs r) :
    r.2.length < cs.length := by
  have hp := List.length_pos_iff.2 h.1
  rw [← h.2, List.length_append]
  omega

/-! ### The scan of a text -/

/-- Why no further piece can be cut off a text. -/
inductive Stop where
  | finished
  | openComment
  | stray (c : Char)
  deriving DecidableEq, Repr, Inhabited

/-- What stands at the front of a text that begins no piece. -/
def Stop.of : List Char → Stop
  | [] => .finished
  | '/' :: '*' :: _ => .openComment
  | c :: _ => .stray c

/-- The pieces of a text, and the text that begins no piece. -/
structure Scan where
  pieces : List Piece
  rest : List Char
  deriving DecidableEq, Repr, Inhabited

/-- Cuts pieces off a text as long as it begins with one. -/
def scan (cs : List Char) : Scan :=
  match h : firstPiece? cs with
  | none => ⟨[], cs⟩
  | some r =>
    have : r.2.length < cs.length := (cuts_firstPiece h).length_lt
    let s := scan r.2
    ⟨r.1 :: s.pieces, s.rest⟩
termination_by cs.length
decreasing_by exact this

/-- The text of a list of pieces. -/
def textOf (ps : List Piece) : List Char := ps.flatMap Piece.text

theorem scan_text (cs : List Char) : textOf (scan cs).pieces ++ (scan cs).rest = cs := by
  fun_induction scan cs with
  | case1 => rfl
  | case2 cs r h _ s ih =>
    have hc := (cuts_firstPiece h).2
    simp only [textOf] at ih ⊢
    rw [List.flatMap_cons, List.append_assoc, ih, hc]

namespace Scan

/-- The lexemes of a scan. -/
def lexemes (s : Scan) : List Lexeme := s.pieces.filterMap Piece.lexeme?

/-- Why a scan ends where it does. -/
def stop (s : Scan) : Stop := Stop.of s.rest

end Scan

/-! ### Places among the pieces -/

/-- The pieces in front of lexeme number `k`, counted from zero; all pieces if there is no such
lexeme. -/
def inFrontOf : Nat → List Piece → List Piece
  | _, [] => []
  | k, p :: ps =>
    if p.isLexeme then
      match k with
      | 0 => []
      | k + 1 => p :: inFrontOf k ps
    else
      p :: inFrontOf k ps

/-- The pieces up to the end of the first `k` lexemes. -/
def through : Nat → List Piece → List Piece
  | _, [] => []
  | 0, _ => []
  | k + 1, p :: ps => p :: through (if p.isLexeme then k else k + 1) ps

/-- The pieces with their places, the first at the given one. -/
def locate : Position → List Piece → List (Position × Piece)
  | _, [] => []
  | p, q :: qs => (p, q) :: locate (p.after q.text) qs

/-- The blanks and comments in front of lexeme number `k`, or behind the last lexeme if there is no
such lexeme. -/
def gapBefore : Nat → List (Position × Piece) → List (Position × Piece)
  | _, [] => []
  | 0, p :: ps => if p.2.isLexeme then [] else p :: gapBefore 0 ps
  | k + 1, p :: ps => gapBefore (if p.2.isLexeme then k else k + 1) ps

end PropBench
