import PropBench.Proofs.Lexeme.Pieces
import PropBench.Proofs.Text.Position

/-!
# Proofs — Lexeme — Tiling

The pieces that a text consists of, with their places (`Tiles`).  Each piece is as long as it can
be in front of the text behind it, and the pieces follow each other without gap or overlap.

* `tiles_iff`: a scan that reaches the end of a text finds its tiling, and there is no other.
* `Tiles.pairwise`: the places of a tiling come one before the other.
-/

namespace PropBench

/-- The pieces of a text that begins at a place, by their places and kinds. -/
inductive Tiles : Position → List Char → List (Position × PieceKind) → Prop
  | nil (p : Position) : Tiles p [] []
  | cons {p : Position} {kind : PieceKind} {text cs : List Char}
      {ts : List (Position × PieceKind)} (hpiece : IsPiece kind text cs)
      (h : Tiles (p.after text) cs ts) : Tiles p (text ++ cs) ((p, kind) :: ts)

/-- The places and kinds of pieces. -/
def kindsOf (ps : List (Position × Piece)) : List (Position × PieceKind) :=
  ps.map fun p => (p.1, p.2.kind)

namespace Tiles

variable {p : Position} {cs : List Char} {ts : List (Position × PieceKind)}

/-- The first piece begins where the text does, and the others further on. -/
theorem eq_or_isBefore (h : Tiles p cs ts) {t : Position × PieceKind} (ht : t ∈ ts) :
    t.1 = p ∨ p.isBefore t.1 := by
  induction h with
  | nil => cases ht
  | @cons p kind text cs ts hpiece _ ih =>
      rcases List.mem_cons.mp ht with rfl | ht
      · exact .inl rfl
      · have hlt := p.isBefore_after hpiece.ne_nil
        rcases ih ht with e | h
        · exact .inr (e ▸ hlt)
        · exact .inr (Position.isBefore_trans hlt h)

/-- The places of a tiling come one before the other. -/
theorem pairwise (h : Tiles p cs ts) : ts.Pairwise fun m n => m.1.isBefore n.1 := by
  induction h with
  | nil => exact .nil
  | @cons p kind text cs ts hpiece h ih =>
      refine .cons (fun t ht => ?_) ih
      have hlt := p.isBefore_after hpiece.ne_nil
      rcases h.eq_or_isBefore ht with e | h
      · exact e ▸ hlt
      · exact Position.isBefore_trans hlt h

end Tiles

/-- The pieces of a text that is scanned to its end tile it. -/
theorem tiles_of_scan {cs : List Char} (h : (scan cs).rest = []) (p : Position) :
    Tiles p cs (kindsOf (locate p (scan cs).pieces)) := by
  fun_induction scan cs generalizing p with
  | case1 cs hnone => obtain rfl : cs = [] := h; exact .nil p
  | case2 cs r hr _ s ih =>
      obtain ⟨-, rfl⟩ := cuts_firstPiece hr
      exact .cons (firstPiece?_iff.mp hr) (ih h _)

/-- A tiling of a text is that of its pieces, so that there is only one. -/
theorem Tiles.scan_eq {cs : List Char} {p : Position} {ts : List (Position × PieceKind)}
    (h : Tiles p cs ts) : (scan cs).rest = [] ∧ ts = kindsOf (locate p (scan cs).pieces) := by
  induction h with
  | nil p =>
      have hnil : scan [] = ⟨[], []⟩ := by decide +kernel
      rw [hnil]
      exact ⟨rfl, rfl⟩
  | @cons p kind text cs ts hpiece _ ih =>
      obtain ⟨hrest, rfl⟩ := ih
      rw [scan_of_firstPiece (firstPiece?_iff (p := ⟨kind, text⟩) |>.mpr hpiece)]
      exact ⟨hrest, rfl⟩

/-- **The scan of a text finds its tiling**, if it reaches the end of the text, and a text has no
other. -/
theorem tiles_iff {cs : List Char} {p : Position} {ts : List (Position × PieceKind)} :
    Tiles p cs ts ↔ (scan cs).rest = [] ∧ ts = kindsOf (locate p (scan cs).pieces) := by
  refine ⟨Tiles.scan_eq, ?_⟩
  rintro ⟨h, rfl⟩
  exact tiles_of_scan h p

end PropBench
