import PropBench.Proofs.Symbols.Naming
import PropBench.Report.Line

/-!
# Proofs — Report — Line

A result is reported on one line if the names in it are without line feeds, as identifiers and
keywords are.

* `OneLine`: a text without a line feed.
* `Result.Named.line_oneLine`: the line of a named result, in colours or not.
-/

namespace PropBench

/-- A text without a line feed. -/
def OneLine (s : String) : Prop := '\n' ∉ s.toList

instance (s : String) : Decidable (OneLine s) := inferInstanceAs (Decidable ('\n' ∉ s.toList))

namespace OneLine

theorem append_iff {s t : String} : OneLine (s ++ t) ↔ OneLine s ∧ OneLine t := by
  simp [OneLine, String.toList_append]

theorem nat (n : Nat) : OneLine (toString n) := by
  intro h
  rw [Nat.toString_eq_repr, Nat.toList_repr] at h
  exact absurd (Nat.isDigit_of_mem_toDigits (by decide) (by decide) h) (by decide)

/-- Commas between names break no line. -/
theorem commas {names : List String} (h : ∀ n ∈ names, OneLine n) :
    OneLine (", ".intercalate names) := by
  induction names with
  | nil => decide
  | cons n names ih =>
      obtain ⟨hn, hnames⟩ := List.forall_mem_cons.mp h
      cases names with
      | nil => rw [String.intercalate_singleton]; exact hn
      | cons m names =>
          rw [String.intercalate_cons_cons, append_iff, append_iff]
          exact ⟨⟨hn, by decide⟩, ih hnames⟩

/-- An identifier holds no break. -/
theorem of_isIdentifier {x : String} (h : IsIdentifier x) : OneLine x := by
  have hx := h.isWord
  intro hmem
  cases hlist : x.toList with
  | nil => rw [hlist] at hmem; cases hmem
  | cons c w =>
      rw [hlist] at hx hmem
      obtain ⟨hc, hw⟩ := Bool.and_eq_true_iff.mp hx
      rcases List.mem_cons.mp hmem with rfl | hmem
      · exact absurd hc (by decide)
      · exact absurd (List.all_eq_true.mp hw _ hmem) (by decide)

theorem keyword (k : Keyword) : OneLine k.text := by cases k <;> decide +kernel

theorem painted {text : String} (h : OneLine text) (colours : Bool) (p : Paint) :
    OneLine (painted colours p text) := by
  have hsgr : OneLine "\x1b[38;5;" ∧ OneLine "m" ∧ OneLine "\x1b[1m" ∧ OneLine "\x1b[0m" ∧
    OneLine "\x1b[39m" := by decide +kernel
  unfold PropBench.painted Paint.wrap
  split
  · split <;> simp only [append_iff, nat, hsgr, h, and_self]
  · exact h

end OneLine

/-! ### Faults and answers -/

theorem Namespace.text_oneLine (space : Namespace) : OneLine space.text := by
  cases space <;> decide +kernel

/-- An input is written on one line. -/
theorem Fault.inputText_oneLine (input : List Bool) : OneLine (inputText input) := by
  have hdigits : ∀ d ∈ input.map fun b => if b then "1" else "0", OneLine d := by
    refine List.forall_mem_map.mpr fun b _ => ?_
    cases b <;> decide +kernel
  have hparens : OneLine "(" ∧ OneLine ")" := by decide +kernel
  simp [inputText, OneLine.append_iff, hparens, OneLine.commas hdigits]

/-- The message of a fault is on one line, if the names in it are. -/
theorem Fault.Named.message_oneLine {f : Fault} (h : f.Named OneLine) : OneLine f.message := by
  -- What is left of each message are its fixed parts.
  unfold Fault.message
  cases f with
  | malformed e => exact h.elim
  | depthLimit depth limit =>
      simp only [OneLine.append_iff, OneLine.nat, and_true]
      decide +kernel
  | duplicate space name | unknown space name =>
      have hname : OneLine (toString name) := h
      have hspace : OneLine (toString space.text) := space.text_oneLine
      simp only [OneLine.append_iff, hname, hspace, and_true]
      decide +kernel
  | unbound name =>
      have hname : OneLine (toString name) := h
      simp only [OneLine.append_iff, hname, and_true]
      decide +kernel
  | arityMismatch o expected found | arityLimit o expected found =>
      have ho : OneLine (toString o) := h
      simp only [OneLine.append_iff, OneLine.nat, ho, and_true]
      decide +kernel
  | noEntry o input =>
      have ho : OneLine (toString o) := h
      have hinput : OneLine (toString (Fault.inputText input)) := Fault.inputText_oneLine input
      simp only [OneLine.append_iff, ho, hinput, and_true]
      decide +kernel

/-! ### Answers -/

/-- A verdict is on one line, if the name of the operator set is. -/
theorem AdequacyReport.line_oneLine {r : AdequacyReport} (h : OneLine r.opset) (colours : Bool) :
    OneLine (r.line colours) := by
  have hretained : ∀ t ∈ r.retained.map PostProperty.short, OneLine t := by
    refine List.forall_mem_map.mpr fun p _ => ?_
    cases p <;> decide +kernel
  have hgood : OneLine "adequate" := by decide +kernel
  have hbad : OneLine "not adequate" := by decide +kernel
  unfold line
  split
  · simp only [OneLine.append_iff, hgood.painted, h, true_and, and_true]
    decide +kernel
  · simp only [OneLine.append_iff, hbad.painted, OneLine.commas hretained, h, true_and, and_true]
    decide +kernel

/-- An answer is on one line, if the names in it are. -/
theorem Outcome.Named.line_oneLine {o : Outcome} (h : o.Named OneLine) (colours : Bool) :
    OneLine (o.line colours) := by
  cases o with
  | declared space names =>
      simp only [Outcome.line, OneLine.append_iff, space.text_oneLine, OneLine.commas h, and_true]
      decide +kernel
  | evaluated f v b =>
      obtain ⟨hf, hv⟩ := h
      have hb : OneLine (if b then "true" else "false") := by cases b <;> decide +kernel
      simp only [Outcome.line, OneLine.append_iff, hb.painted, hf, hv, true_and, and_true]
      decide +kernel
  | adequacy r => exact r.line_oneLine h colours

/-! ### Results -/

theorem StatementKind.text_oneLine (kind : StatementKind) : OneLine kind.text := by
  cases kind <;> decide +kernel

/-- A result is on one line, if the names in it are. -/
theorem Result.Named.line_oneLine {r : Result} (h : r.Named OneLine) (colours : Bool) :
    OneLine (r.line colours) := by
  have hkind : OneLine (toString r.kind.text) := r.kind.text_oneLine
  have herror : OneLine "error:" := by decide +kernel
  unfold Result.line
  cases hr : r.outcome with
  | ok o =>
      simp only [OneLine.append_iff, OneLine.nat, hkind, (h.1 o hr).line_oneLine, and_true]
      decide +kernel
  | error f =>
      simp only [OneLine.append_iff, OneLine.nat, hkind, herror.painted,
        (h.2 f hr).message_oneLine, and_true, true_and]
      decide +kernel

end PropBench
