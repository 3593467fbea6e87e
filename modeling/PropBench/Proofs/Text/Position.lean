import Mathlib
import PropBench.Text.Position

/-!
# Proofs — Text — Position

The place behind a text.

* `Position.after_start`: its line counts the line feeds of the text, its column the characters
  behind the last of them.
* `Position.after_line`: a text on the line behind another ends as it would on its own, some lines
  further down.
* `Position.isBefore_after`: places come one after the other as the text goes on.
-/

namespace PropBench

namespace Position

theorem after_start (cs : List Char) :
    start.after cs = ⟨cs.count '\n' + 1, (cs.rtakeWhile (· ≠ '\n')).length + 1⟩ := by
  -- From the back, as the column depends on the last line alone.
  induction cs using List.reverseRecOn with
  | nil => rfl
  | append_singleton cs c ih =>
      rw [after_append, ih]
      by_cases hc : c = '\n'
      · subst hc
        simp [after, next]
      · simp [after, next, hc]

/-- The place `n` lines further down. -/
def down (n : Nat) (p : Position) : Position := ⟨p.line + n, p.column⟩

theorem next_down (n : Nat) (p : Position) (c : Char) : (p.down n).next c = (p.next c).down n := by
  by_cases hc : c = '\n'
  · simp [next, down, hc, Nat.add_right_comm]
  · simp [next, down, hc]

theorem after_down (n : Nat) (p : Position) (cs : List Char) :
    (p.down n).after cs = (p.after cs).down n := by
  induction cs generalizing p with
  | nil => rfl
  | cons c cs ih =>
      show ((p.down n).next c).after cs = ((p.next c).after cs).down n
      rw [next_down, ih]

theorem after_line (cs ds : List Char) :
    start.after (cs ++ '\n' :: ds) = (start.after ds).down (cs.count '\n' + 1) := by
  have hline : (start.after cs).next '\n' = start.down (cs.count '\n' + 1) := by
    rw [after_start]
    simp [next, down, start, Nat.add_comm]
  rw [after_append]
  show ((start.after cs).next '\n').after ds = _
  rw [hline, after_down]

/-! ### One place before another -/

theorem isBefore_iff {p q : Position} :
    p.isBefore q ↔ p.line < q.line ∨ p.line = q.line ∧ p.column < q.column := by
  simp [isBefore]

theorem isBefore_trans {p q r : Position} (h₁ : p.isBefore q) (h₂ : q.isBefore r) :
    p.isBefore r := by
  rw [isBefore_iff] at *
  omega

theorem not_isBefore_self (p : Position) : ¬ p.isBefore p := by
  rw [isBefore_iff]
  omega

/-- Of two places one comes before the other. -/
theorem isBefore_of_ne {p q : Position} (hne : p ≠ q) (h : ¬ p.isBefore q) : q.isBefore p := by
  rw [isBefore_iff] at *
  have : ¬ (p.line = q.line ∧ p.column = q.column) := fun ⟨hl, hc⟩ => hne (by
    cases p; cases q; simp_all)
  omega

theorem isBefore_next (p : Position) (c : Char) : p.isBefore (p.next c) := by
  rw [isBefore_iff, next]
  split
  · exact .inl (Nat.lt_succ_self _)
  · exact .inr ⟨rfl, Nat.lt_succ_self _⟩

/-- A text that is not empty ends behind its beginning. -/
theorem isBefore_after (p : Position) {cs : List Char} (h : cs ≠ []) : p.isBefore (p.after cs) := by
  induction cs generalizing p with
  | nil => exact absurd rfl h
  | cons c cs ih =>
      show p.isBefore ((p.next c).after cs)
      by_cases hcs : cs = []
      · subst hcs
        exact p.isBefore_next c
      · exact isBefore_trans (p.isBefore_next c) (ih _ hcs)

end Position

end PropBench
