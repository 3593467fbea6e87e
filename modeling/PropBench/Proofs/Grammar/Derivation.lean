import Mathlib
import PropBench.Grammar.Statement

/-!
# Proofs — Grammar — Derivation

The grammar of programs, as relations between lists of lexemes and what they are written forms of.

* `Lexeme.Signs`, `Lexeme.Negates`, `Lexeme.Denotes`, `Lexeme.NamesOperator`: what single lexemes
  stand for.
* `Derives b n`: the expressions at the level `b`, with parentheses and applications nested at most
  `n` deep.  From the loosest on, the levels `1` to `4` are those of IFF, IMPLIES, OR and AND, `5`
  is that of negations and `6` that of primaries; a connective takes operands of tighter levels,
  and on one side, the side it groups to, of its own.
* `Listed F`: lists of what `F` relates, with commas between.
* `StatementForm E`, `ProgramForm E`: statements and programs; `E` says what the expressions are:
  those within a limit (`DerivesWithin`), or all of them (`DerivesFreely`).
-/

namespace PropBench

/-! ### Single lexemes -/

/-- The signs and keywords of the binary connectives. -/
inductive Lexeme.Signs : Lexeme → Binary → Prop
  | doubleArrow : Signs (.symbol .doubleArrow) .iff
  | iff : Signs (.keyword .iff) .iff
  | arrow : Signs (.symbol .arrow) .implies
  | implies : Signs (.keyword .implies) .implies
  | hence : Signs (.keyword .hence) .implies
  | bar : Signs (.symbol .bar) .or
  | or : Signs (.keyword .or) .or
  | ampersand : Signs (.symbol .ampersand) .and
  | and : Signs (.keyword .and) .and

/-- The signs and the keyword of negation. -/
inductive Lexeme.Negates : Lexeme → Prop
  | bang : Negates (.symbol .bang)
  | tilde : Negates (.symbol .tilde)
  | not : Negates (.keyword .not)

/-- The keywords and digits of the truth values. -/
inductive Lexeme.Denotes : Lexeme → Bool → Prop
  | truth : Denotes (.keyword .truth) true
  | one : Denotes (.symbol .one) true
  | falsity : Denotes (.keyword .falsity) false
  | zero : Denotes (.symbol .zero) false

/-- A cell of a pattern is a truth value or the wildcard. -/
inductive Lexeme.IsCell : Lexeme → Cell → Prop
  | blank : IsCell .wildcard .blank
  | value {l : Lexeme} {b : Bool} (h : l.Denotes b) : IsCell l (.value b)

/-- A member of an operator set is a name, or a connective by its keyword, which is kept in upper
case. -/
inductive Lexeme.NamesOperator : Lexeme → String → Prop
  | name (n : String) : NamesOperator (.name n) n
  | not : NamesOperator (.keyword .not) "NOT"
  | and : NamesOperator (.keyword .and) "AND"
  | or : NamesOperator (.keyword .or) "OR"
  | implies : NamesOperator (.keyword .implies) "IMPLIES"
  | hence : NamesOperator (.keyword .hence) "THEN"
  | iff : NamesOperator (.keyword .iff) "IFF"

/-- The lexeme is a name. -/
inductive Lexeme.IsName : Lexeme → String → Prop
  | mk (n : String) : IsName (.name n) n

/-- A list of one lexeme. -/
inductive Single {α : Type} (R : Lexeme → α → Prop) : List Lexeme → α → Prop
  | mk {l : Lexeme} {a : α} (h : R l a) : Single R [l] a

/-! ### Lists -/

/-- Lists of lexemes with a comma between each two. -/
def commaSeparated : List (List Lexeme) → List Lexeme
  | [] => []
  | [ls] => ls
  | ls :: ms :: parts => ls ++ .symbol .comma :: commaSeparated (ms :: parts)

/-- The lexemes of a list of values, with commas between. -/
def Listed {α : Type} (F : List Lexeme → α → Prop) (ls : List Lexeme) (as : List α) : Prop :=
  ∃ parts : List (List Lexeme × α), (∀ p ∈ parts, F p.1 p.2) ∧
    ls = commaSeparated (parts.map Prod.fst) ∧ as = parts.map Prod.snd

/-! ### Expressions -/

/-- The connectives that group to the right, and their levels. -/
inductive RightLevel : Binary → Nat → Prop
  | iff : RightLevel .iff 1
  | implies : RightLevel .implies 2

/-- The connectives that group to the left, and their levels. -/
inductive LeftLevel : Binary → Nat → Prop
  | or : LeftLevel .or 3
  | and : LeftLevel .and 4

/-- The lexemes of an expression at a level, with a bound on the nesting. -/
inductive Derives : Nat → Nat → List Lexeme → Expr → Prop
  | tighter {b n : Nat} {ls : List Lexeme} {e : Expr} (h : Derives (b + 1) n ls e) :
      Derives b n ls e
  | right {c : Binary} {b n : Nat} {l : Lexeme} {ls rs : List Lexeme} {e f : Expr}
      (hl : l.Signs c) (hc : RightLevel c b) (he : Derives (b + 1) n ls e)
      (hf : Derives b n rs f) : Derives b n (ls ++ l :: rs) (.binary c e f)
  | left {c : Binary} {b n : Nat} {l : Lexeme} {ls rs : List Lexeme} {e f : Expr}
      (hl : l.Signs c) (hc : LeftLevel c b) (he : Derives b n ls e)
      (hf : Derives (b + 1) n rs f) : Derives b n (ls ++ l :: rs) (.binary c e f)
  | not {n : Nat} {l : Lexeme} {ls : List Lexeme} {e : Expr} (hl : l.Negates)
      (h : Derives 5 n ls e) : Derives 5 n (l :: ls) (.not e)
  | var (n : Nat) (x : String) : Derives 6 n [.name x] (.var x)
  | formula (n : Nat) (f : String) : Derives 6 n [.symbol .atSign, .name f] (.formula f)
  | parens {n : Nat} {ls : List Lexeme} {e : Expr} (h : Derives 1 n ls e) :
      Derives 6 (n + 1) (.symbol .openParen :: (ls ++ [.symbol .closeParen])) e
  | apply {n : Nat} (o : String) {parts : List (List Lexeme × Expr)}
      (h : ∀ p ∈ parts, Derives 1 n p.1 p.2) :
      Derives 6 (n + 1)
        (.name o :: .symbol .openParen ::
          (commaSeparated (parts.map Prod.fst) ++ [.symbol .closeParen]))
        (.apply o (parts.map Prod.snd))

/-- The lexemes of an expression that is at most `limit` deep and nested at most `limit` deep. -/
def DerivesWithin (limit : Nat) (ls : List Lexeme) (e : Expr) : Prop :=
  Derives 1 limit ls e ∧ e.depth ≤ limit

/-! ### Statements -/

/-- The lexemes of an assignment. -/
inductive AssignmentForm : List Lexeme → String × Bool → Prop
  | mk (x : String) {l : Lexeme} {b : Bool} (h : l.Denotes b) :
      AssignmentForm [.name x, .symbol .colon, l] (x, b)

/-- The lexemes of an entry of a table. -/
inductive EntryForm : List Lexeme → Entry → Prop
  | pattern {ls : List Lexeme} {cells : List Cell} {l : Lexeme} {b : Bool}
      (h : Listed (Single Lexeme.IsCell) ls cells) (hl : l.Denotes b) :
      EntryForm (.symbol .openParen :: (ls ++ [.symbol .closeParen, .symbol .arrow, l]))
        (.pattern cells b)
  | otherwise {l : Lexeme} {b : Bool} (hl : l.Denotes b) :
      EntryForm [.keyword .otherwise, .symbol .arrow, l] (.otherwise b)

/-- The lexemes of a statement, the closing semicolon included. -/
inductive StatementForm (E : List Lexeme → Expr → Prop) : List Lexeme → Statement → Prop
  | vars {ls : List Lexeme} {names : List String} (h : Listed (Single Lexeme.IsName) ls names)
      (hne : names ≠ []) :
      StatementForm E
        (.keyword .define :: .keyword .variableKind :: (ls ++ [.symbol .semicolon]))
        (.defineVariables names)
  | formula (f : String) {ls : List Lexeme} {e : Expr} (h : E ls e) :
      StatementForm E
        (.keyword .define :: .keyword .formulaKind :: .name f :: .symbol .equals ::
          (ls ++ [.symbol .semicolon]))
        (.defineFormula f e)
  | valuation (v : String) {ls : List Lexeme} {assignments : List (String × Bool)}
      (h : Listed AssignmentForm ls assignments) :
      StatementForm E
        (.keyword .define :: .keyword .valuationKind :: .name v :: .symbol .equals ::
          .symbol .openBrace :: (ls ++ [.symbol .closeBrace, .symbol .semicolon]))
        (.defineValuation v assignments)
  | operator (o : String) {ps es : List Lexeme} {parameters : List String} {entries : List Entry}
      (hp : Listed (Single Lexeme.IsName) ps parameters) (he : Listed EntryForm es entries) :
      StatementForm E
        (.keyword .define :: .keyword .operatorKind :: .name o :: .symbol .openParen ::
          (ps ++ .symbol .closeParen :: .symbol .equals :: .symbol .openBrace ::
            (es ++ [.symbol .closeBrace, .symbol .semicolon])))
        (.defineOperator ⟨o, parameters, ⟨entries⟩⟩)
  | opset (s : String) {ls : List Lexeme} {names : List String}
      (h : Listed (Single Lexeme.NamesOperator) ls names) :
      StatementForm E
        (.keyword .define :: .keyword .opsetKind :: .name s :: .symbol .equals ::
          .symbol .openBrace :: (ls ++ [.symbol .closeBrace, .symbol .semicolon]))
        (.defineOpset s names)
  | evaluate (f v : String) :
      StatementForm E
        [.keyword .evaluate, .name f, .keyword .under, .name v, .symbol .semicolon]
        (.evaluate f v)
  | adequate (s : String) :
      StatementForm E [.keyword .adequate, .name s, .symbol .semicolon] (.adequate s)

/-- The lexemes of a program: those of its statements, one after the other. -/
inductive ProgramForm (E : List Lexeme → Expr → Prop) : List Lexeme → Program → Prop
  | nil : ProgramForm E [] []
  | cons {ls ms : List Lexeme} {statement : Statement} {p : Program}
      (hs : StatementForm E ls statement) (hp : ProgramForm E ms p) :
      ProgramForm E (ls ++ ms) (statement :: p)

/-! ### Limits -/

/-- The lexemes of an expression, with no bound on its depth or nesting. -/
def DerivesFreely (ls : List Lexeme) (e : Expr) : Prop := ∃ n, Derives 1 n ls e

/-- What is nested in `n` parentheses at most may be nested in more. -/
theorem Derives.nest {b n n' : Nat} {ls : List Lexeme} {e : Expr} (h : Derives b n ls e)
    (hn : n ≤ n') : Derives b n' ls e := by
  induction h generalizing n' with
  | tighter _ ih => exact .tighter (ih hn)
  | right hl hc _ _ ihe ihf => exact .right hl hc (ihe hn) (ihf hn)
  | left hl hc _ _ ihe ihf => exact .left hl hc (ihe hn) (ihf hn)
  | not hl _ ih => exact .not hl (ih hn)
  | var _ x => exact .var _ x
  | formula _ f => exact .formula _ f
  | parens _ ih =>
      obtain ⟨m, rfl⟩ := Nat.exists_eq_succ_of_ne_zero (Nat.ne_zero_of_lt hn)
      exact .parens (ih (Nat.le_of_succ_le_succ hn))
  | apply o _ ih =>
      obtain ⟨m, rfl⟩ := Nat.exists_eq_succ_of_ne_zero (Nat.ne_zero_of_lt hn)
      exact .apply o fun p hp => ih p hp (Nat.le_of_succ_le_succ hn)

theorem StatementForm.mono {E E' : List Lexeme → Expr → Prop} {ls : List Lexeme} {st : Statement}
    (h : StatementForm E ls st) (hE : ∀ ls e, E ls e → E' ls e) : StatementForm E' ls st := by
  cases h with
  | vars h hne => exact .vars h hne
  | formula f h => exact .formula f (hE _ _ h)
  | valuation v h => exact .valuation v h
  | operator o hp he => exact .operator o hp he
  | opset s h => exact .opset s h
  | evaluate f v => exact .evaluate f v
  | adequate s => exact .adequate s

/-- A program is over any grammar of expressions that allows more. -/
theorem ProgramForm.mono {E E' : List Lexeme → Expr → Prop} {ls : List Lexeme} {p : Program}
    (h : ProgramForm E ls p) (hE : ∀ ls e, E ls e → E' ls e) : ProgramForm E' ls p := by
  induction h with
  | nil => exact .nil
  | cons hs _ ih => exact .cons (hs.mono hE) ih

/-- A limit only takes expressions away. -/
theorem DerivesWithin.freely {limit : Nat} {ls : List Lexeme} {e : Expr}
    (h : DerivesWithin limit ls e) : DerivesFreely ls e := ⟨limit, h.1⟩

theorem DerivesWithin.mono {limit limit' : Nat} (hl : limit ≤ limit') {ls : List Lexeme} {e : Expr}
    (h : DerivesWithin limit ls e) : DerivesWithin limit' ls e :=
  ⟨h.1.nest hl, h.2.trans hl⟩

/-- Every statement is within some limit, and within all higher ones. -/
theorem StatementForm.exists_limit {ls : List Lexeme} {st : Statement}
    (h : StatementForm DerivesFreely ls st) :
    ∃ bound, ∀ limit, bound ≤ limit → StatementForm (DerivesWithin limit) ls st := by
  cases h with
  | formula f h =>
      obtain ⟨n, hn⟩ := h
      exact ⟨max n _, fun limit hl => .formula f
        ⟨hn.nest ((le_max_left _ _).trans hl), (le_max_right _ _).trans hl⟩⟩
  | vars h hne => exact ⟨0, fun _ _ => .vars h hne⟩
  | valuation v h => exact ⟨0, fun _ _ => .valuation v h⟩
  | operator o hp he => exact ⟨0, fun _ _ => .operator o hp he⟩
  | opset s h => exact ⟨0, fun _ _ => .opset s h⟩
  | evaluate f v => exact ⟨0, fun _ _ => .evaluate f v⟩
  | adequate s => exact ⟨0, fun _ _ => .adequate s⟩

/-- A program of the grammar is one within all limits that are high enough. -/
theorem ProgramForm.exists_limit {ls : List Lexeme} {p : Program}
    (h : ProgramForm DerivesFreely ls p) :
    ∃ bound, ∀ limit, bound ≤ limit → ProgramForm (DerivesWithin limit) ls p := by
  induction h with
  | nil => exact ⟨0, fun _ _ => .nil⟩
  | cons hs _ ih =>
      obtain ⟨b, hb⟩ := hs.exists_limit
      obtain ⟨c, hc⟩ := ih
      exact ⟨max b c, fun limit hl =>
        .cons (hb limit ((le_max_left _ _).trans hl)) (hc limit ((le_max_right _ _).trans hl))⟩

/-! ### Lists of forms -/

namespace Listed

variable {α : Type} {F : List Lexeme → α → Prop} {ls ms : List Lexeme} {a b : α} {as bs : List α}

theorem nil : Listed F [] ([] : List α) := ⟨[], by simp, rfl, rfl⟩

theorem of_nil (h : Listed F ls []) : ls = [] := by
  obtain ⟨parts, -, rfl, hp⟩ := h
  rw [List.map_eq_nil_iff.mp hp.symm]; rfl

theorem single (h : F ls a) : Listed F ls [a] := ⟨[(ls, a)], by simpa using h, rfl, rfl⟩

theorem of_single (h : Listed F ls [a]) : F ls a := by
  obtain ⟨parts, hF, rfl, hp⟩ := h
  obtain ⟨p, rfl, rfl⟩ := List.map_eq_singleton_iff.mp hp.symm
  exact hF p (by simp)

/-- An item and a comma may stand in front of a list. -/
theorem cons (h : F ls a) (hs : Listed F ms as) (hne : as ≠ []) :
    Listed F (ls ++ .symbol .comma :: ms) (a :: as) := by
  obtain ⟨parts, hF, rfl, rfl⟩ := hs
  refine ⟨(ls, a) :: parts, List.forall_mem_cons.mpr ⟨h, hF⟩, ?_, rfl⟩
  cases parts with
  | nil => exact absurd rfl hne
  | cons p parts => rfl

/-- A list of two or more begins with an item and a comma. -/
theorem of_cons (h : Listed F ls (a :: b :: bs)) :
    ∃ front tail, ls = front ++ .symbol .comma :: tail ∧ F front a ∧ Listed F tail (b :: bs) := by
  obtain ⟨parts, hF, rfl, hp⟩ := h
  obtain ⟨p, tail, rfl, rfl, htail⟩ := List.map_eq_cons_iff.mp hp.symm
  obtain ⟨q, rest, rfl, rfl, rfl⟩ := List.map_eq_cons_iff.mp htail
  exact ⟨p.1, _, rfl, hF p (by simp), q :: rest, fun p' h => hF p' (by simp [h]), rfl, rfl⟩

/-- A comma and an item may stand behind a list. -/
theorem snoc (h : Listed F ls as) (hs : F ms b) (hne : as ≠ []) :
    Listed F (ls ++ .symbol .comma :: ms) (as ++ [b]) := by
  induction as generalizing ls with
  | nil => exact absurd rfl hne
  | cons a as ih =>
      cases as with
      | nil => exact cons h.of_single (single hs) (by simp)
      | cons c cs =>
          obtain ⟨front, tail, rfl, hF, hL⟩ := h.of_cons
          rw [List.append_assoc]
          exact cons hF (ih hL (by simp)) (by simp)

theorem map {β : Type} {G : List Lexeme → β → Prop} (h : Listed F ls as) (f : α → β)
    (hG : ∀ ls a, F ls a → G ls (f a)) : Listed G ls (as.map f) := by
  obtain ⟨parts, hF, rfl, rfl⟩ := h
  refine ⟨parts.map fun p => (p.1, f p.2), ?_, ?_, ?_⟩
  · exact List.forall_mem_map.mpr fun p hp => hG p.1 p.2 (hF p hp)
  · rw [List.map_map]; rfl
  · rw [List.map_map, List.map_map]; rfl

end Listed

/-! ### Levels -/

namespace Derives

variable {b n : Nat} {ls : List Lexeme} {e : Expr}

theorem loosen (h : Derives b n ls e) {b' : Nat} (hb : b' ≤ b) : Derives b' n ls e := by
  induction hb with
  | refl => exact h
  | step _ ih => exact ih h.tighter

end Derives

theorem Binary.binding_le (c : Binary) : c.binding ≤ 4 := by cases c <;> decide

theorem Binary.one_le_binding (c : Binary) : 1 ≤ c.binding := by cases c <;> decide

theorem RightLevel.le {c : Binary} {b : Nat} (h : RightLevel c b) : b ≤ 4 := by
  cases h <;> decide

theorem LeftLevel.le {c : Binary} {b : Nat} (h : LeftLevel c b) : b ≤ 4 := by
  cases h <;> decide

/-- A connective that groups to the right is at its own level. -/
theorem rightLevel_iff {c : Binary} {b : Nat} :
    RightLevel c b ↔ c.groupsRight = true ∧ b = c.binding := by
  refine ⟨fun h => by cases h <;> exact ⟨rfl, rfl⟩, ?_⟩
  rintro ⟨hc, rfl⟩
  cases c with
  | iff => exact .iff
  | implies => exact .implies
  | and | or => cases hc

/-- A connective that groups to the left is at its own level. -/
theorem leftLevel_iff {c : Binary} {b : Nat} :
    LeftLevel c b ↔ c.groupsRight = false ∧ b = c.binding := by
  refine ⟨fun h => by cases h <;> exact ⟨rfl, rfl⟩, ?_⟩
  rintro ⟨hc, rfl⟩
  cases c with
  | or => exact .or
  | and => exact .and
  | iff | implies => cases hc

theorem Binary.binding_injective {c d : Binary} (h : c.binding = d.binding) : c = d := by
  revert h; cases c <;> cases d <;> decide

/-- The tightest level is that of the primaries. -/
theorem Derives.level_le {b n : Nat} {ls : List Lexeme} {e : Expr} (h : Derives b n ls e) :
    b ≤ 6 := by
  induction h with
  | tighter _ ih => exact (Nat.le_succ _).trans ih
  | right _ hc => exact hc.le.trans (by decide)
  | left _ hc => exact hc.le.trans (by decide)
  | not => decide
  | var | formula | parens | apply => exact le_rfl

namespace Derives

variable {n : Nat} {ls : List Lexeme} {e : Expr}

/-- An application is a name and its arguments in parentheses. -/
theorem apply_listed (o : String) {args : List Expr} (h : Listed (Derives 1 n) ls args) :
    Derives 6 (n + 1) (.name o :: .symbol .openParen :: (ls ++ [.symbol .closeParen]))
      (.apply o args) := by
  obtain ⟨parts, hF, rfl, rfl⟩ := h
  exact .apply o hF

/-- The forms of a primary. -/
theorem primary_cases (h : Derives 6 n ls e) :
    (∃ x, ls = [.name x] ∧ e = .var x) ∨ (∃ f, ls = [.symbol .atSign, .name f] ∧ e = .formula f) ∨
    (∃ m ms, n = m + 1 ∧ ls = .symbol .openParen :: (ms ++ [.symbol .closeParen]) ∧
      Derives 1 m ms e) ∨
    ∃ m o ms args, n = m + 1 ∧
      ls = .name o :: .symbol .openParen :: (ms ++ [.symbol .closeParen]) ∧
        Listed (Derives 1 m) ms args ∧ e = .apply o args := by
  generalize hb : 6 = b at h
  cases h with
  | tighter h => subst hb; exact absurd h.level_le (by decide)
  | right _ hc => have := hc.le; omega
  | left _ hc => have := hc.le; omega
  | not => cases hb
  | var _ x => exact .inl ⟨x, rfl, rfl⟩
  | formula _ f => exact .inr (.inl ⟨f, rfl, rfl⟩)
  | parens h => exact .inr (.inr (.inl ⟨_, _, rfl, rfl, h⟩))
  | @apply m o parts h => exact .inr (.inr (.inr ⟨m, o, _, _, rfl, rfl, ⟨parts, h, rfl, rfl⟩, rfl⟩))

/-- A row of negations in front of a primary. -/
theorem exists_negations (h : Derives 5 n ls e) :
    ∃ negs ms f, (∀ l ∈ negs, l.Negates) ∧ Derives 6 n ms f ∧ ls = negs ++ ms ∧
      e = f.negate negs.length := by
  generalize hb : 5 = b at h
  induction h with
  | tighter h => obtain rfl := hb; exact ⟨[], _, _, by simp, h, rfl, rfl⟩
  | right _ hc => have := hc.le; omega
  | left _ hc => have := hc.le; omega
  | @not n l ls e hl _ ih =>
      obtain ⟨negs, ms, f, hnegs, hf, rfl, rfl⟩ := ih rfl
      exact ⟨l :: negs, ms, f, List.forall_mem_cons.mpr ⟨hl, hnegs⟩, hf, rfl, rfl⟩
  | _ => cases hb

/-- Negations may stand in front of anything negated. -/
theorem negate {negs : List Lexeme} (hnegs : ∀ l ∈ negs, l.Negates)
    (h : Derives 5 n ls e) : Derives 5 n (negs ++ ls) (e.negate negs.length) := by
  induction negs with
  | nil => exact h
  | cons l negs ih =>
      obtain ⟨hl, hnegs⟩ := List.forall_mem_cons.mp hnegs
      exact .not hl (ih hnegs)

/-- An expression begins with a lexeme, which closes nothing. -/
theorem exists_head {b : Nat} (h : Derives b n ls e) :
    ∃ l ms, ls = l :: ms ∧ l ≠ .symbol .closeParen := by
  induction h with
  | tighter _ ih => exact ih
  | right _ _ _ _ ih | left _ _ _ _ ih =>
      obtain ⟨l, ms, rfl, hl⟩ := ih
      exact ⟨l, _, rfl, hl⟩
  | not hl => exact ⟨_, _, rfl, by rintro rfl; cases hl⟩
  | _ => exact ⟨_, _, rfl, by simp⟩

/-- A primary does not begin with a negation. -/
theorem primary_head (h : Derives 6 n ls e) : ∃ l ms, ls = l :: ms ∧ ¬ l.Negates := by
  rcases h.primary_cases with
    ⟨x, rfl, -⟩ | ⟨f, rfl, -⟩ | ⟨m, ms, -, rfl, -⟩ | ⟨m, o, ms, _, -, rfl, -⟩
  all_goals exact ⟨_, _, rfl, nofun⟩

end Derives

end PropBench
