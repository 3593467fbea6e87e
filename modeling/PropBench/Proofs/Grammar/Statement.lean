import PropBench.Proofs.Grammar.Expression

/-!
# Proofs — Grammar — Statement

The statement reader reads the statements of the grammar (`reads_statement`), and a program is read
to its end exactly when it is one of the grammar (`readProgram_eq_iff`).
-/

namespace PropBench

/-- The keyword of a verb. -/
def StatementVerb.keyword : StatementVerb → Keyword
  | .define => .define
  | .evaluate => .evaluate
  | .adequate => .adequate

/-- The keyword of a kind of definition. -/
def DefinitionKind.keyword : DefinitionKind → Keyword
  | .vars => .variableKind
  | .formula => .formulaKind
  | .valuation => .valuationKind
  | .operator => .operatorKind
  | .opset => .opsetKind

theorem Lexeme.verb?_eq_some {l : Lexeme} {v : StatementVerb} :
    l.verb? = some v ↔ l = .keyword v.keyword := by
  cases l with
  | keyword k => cases k <;> cases v <;> decide
  | _ => cases v <;> simp [verb?]

theorem Lexeme.definitionKind?_eq_some {l : Lexeme} {k : DefinitionKind} :
    l.definitionKind? = some k ↔ l = .keyword k.keyword := by
  cases l with
  | keyword k' => cases k' <;> cases k <;> decide
  | _ => cases k <;> simp [definitionKind?]

theorem Lexeme.truthValue?_eq_some {l : Lexeme} {b : Bool} :
    l.truthValue? = some b ↔ l.Denotes b := by
  refine ⟨fun h => ?_, fun h => by cases h <;> rfl⟩
  unfold truthValue? at h
  split at h
  all_goals first | cases h; constructor | cases h

theorem Lexeme.cell?_eq_some {l : Lexeme} {c : Cell} : l.cell? = some c ↔ l.IsCell c := by
  constructor
  · intro h
    unfold cell? at h
    split at h
    · cases h; exact .blank
    · obtain ⟨b, hb, rfl⟩ := Option.map_eq_some_iff.mp h
      exact .value (truthValue?_eq_some.mp hb)
  · intro h
    cases h with
    | blank => rfl
    | value h => cases h <;> rfl

theorem Lexeme.operatorName?_eq_some {l : Lexeme} {n : String} :
    l.operatorName? = some n ↔ l.NamesOperator n := by
  refine ⟨fun h => ?_, fun h => by cases h <;> rfl⟩
  unfold operatorName? at h
  split at h
  all_goals first | cases h; constructor | cases h

/-- A form of one lexeme does not begin with a symbol that is no such lexeme. -/
theorem Single.ne_symbol {α : Type} {R : Lexeme → α → Prop} {close : Symbol}
    (hR : ∀ a, ¬ R (.symbol close) a) {ls : List Lexeme} {a : α} (h : Single R ls a)
    (rest ms : List Lexeme) : ls ++ rest ≠ .symbol close :: ms := by
  obtain ⟨h⟩ := h
  rintro e
  cases e
  exact hR a h

namespace Reader

variable {α : Type} {item : Reader α} {F : List Lexeme → α → Prop}

/-! ### Parts of statements -/

/-- The reader reads what `F` relates, whatever comes behind. -/
abbrev ReadsAll (r : Reader α) (F : List Lexeme → α → Prop) : Prop := r.Reads F fun _ => True

/-- The lexemes of a list in brackets. -/
def Bracketed (opening close : Symbol) (F : List Lexeme → α → Prop) (ls : List Lexeme)
    (as : List α) : Prop :=
  ∃ ms, ls = .symbol opening :: (ms ++ [.symbol close]) ∧ Listed F ms as

/-- A list in brackets, whose items do not begin with the closing one. -/
theorem reads_bracketed {opening close : Symbol} {what what' : Expectation}
    (h : item.ReadsAll F) (hne : close ≠ .comma)
    (hF : ∀ {ls a}, F ls a → ∀ rest ms, ls ++ rest ≠ .symbol close :: ms) :
    (symbol opening what >>= fun _ => closed item close what').ReadsAll
      (Bracketed opening close F) := by
  have hclosed : (closed item close what').ReadsAll _ :=
    h.closed (fun _ => trivial) (fun _ => trivial) hne hF
  constructor
  · intro ls as rest hg
    obtain ⟨_, ms, ho, hg⟩ := gives_bind.mp hg
    obtain ⟨front, rfl, ms, rfl, hL⟩ := hclosed.sound hg
    exact ⟨_, gives_symbol.mp ho, ms, rfl, hL⟩
  · rintro ls as ⟨ms, rfl, hL⟩ rest -
    exact gives_bind.mpr ⟨(), _, gives_symbol.mpr rfl, hclosed.complete ⟨ms, rfl, hL⟩ rest trivial⟩

theorem gives_truthValue {ls : List Lexeme} {b : Bool} {rest : List Lexeme} :
    truthValue.Gives ls b rest ↔ ∃ l, ls = l :: rest ∧ l.Denotes b :=
  gives_accept.trans (by simp only [Lexeme.truthValue?_eq_some])

theorem reads_assignment : assignment.ReadsAll AssignmentForm where
  sound h := by
    obtain ⟨x, ms, hx, h⟩ := gives_bind.mp h
    obtain ⟨_, ns, hc, h⟩ := gives_bind.mp h
    obtain ⟨b, hb, rfl⟩ := gives_map.mp h
    obtain rfl := gives_name.mp hx
    obtain rfl := gives_symbol.mp hc
    obtain ⟨l, rfl, hl⟩ := gives_truthValue.mp hb
    exact ⟨_, rfl, .mk x hl⟩
  complete h _ _ := by
    cases h with
    | mk x hl =>
        exact gives_bind.mpr ⟨x, _, gives_name.mpr rfl, gives_bind.mpr ⟨(), _, gives_symbol.mpr rfl,
          gives_map.mpr ⟨_, gives_truthValue.mpr ⟨_, rfl, hl⟩, rfl⟩⟩⟩

theorem gives_image {ls : List Lexeme} {b : Bool} {rest : List Lexeme} :
    image.Gives ls b rest ↔ ∃ l, ls = .symbol .arrow :: l :: rest ∧ l.Denotes b := by
  rw [image, gives_bind]
  constructor
  · rintro ⟨_, ms, ha, h⟩
    obtain rfl := gives_symbol.mp ha
    obtain ⟨l, rfl, hl⟩ := gives_truthValue.mp h
    exact ⟨l, rfl, hl⟩
  · rintro ⟨l, rfl, hl⟩
    exact ⟨(), _, gives_symbol.mpr rfl, gives_truthValue.mpr ⟨l, rfl, hl⟩⟩

theorem reads_cells : (parenthesized .entry (accept .cell Lexeme.cell?)).ReadsAll
    (Bracketed .openParen .closeParen (Single Lexeme.IsCell)) := by
  refine reads_bracketed (reads_accept Lexeme.cell?_eq_some) (by decide) (Single.ne_symbol ?_)
  rintro _ (_ | ⟨⟨⟩⟩)

/-- Without the keyword in front, an entry has a pattern. -/
theorem entry_eq_patternEntry {ls : List Lexeme} (h : ∀ ms, ls ≠ .keyword .otherwise :: ms) :
    entry ls = patternEntry ls := by
  unfold entry
  split
  · next ms => exact absurd rfl (h ms)
  · rfl

/-- An entry begins with an opening parenthesis or `OTHERWISE`. -/
theorem gives_entry {ls : List Lexeme} {e : Entry} {rest : List Lexeme} :
    entry.Gives ls e rest ↔ patternEntry.Gives ls e rest ∨ otherwiseEntry.Gives ls e rest := by
  by_cases hls : ∃ ms, ls = .keyword .otherwise :: ms
  · obtain ⟨ms, rfl⟩ := hls
    refine ⟨.inr, fun h => h.elim (fun h => ?_) id⟩
    obtain ⟨_, _, hc, -⟩ := gives_bind.mp h
    obtain ⟨_, hls, ns, rfl, -⟩ := reads_cells.sound hc
    cases hls
  · rw [Gives, entry_eq_patternEntry fun ms e => hls ⟨ms, e⟩]
    refine ⟨.inl, fun h => h.elim id fun h => ?_⟩
    obtain ⟨_, ms, hk, -⟩ := gives_bind.mp h
    exact absurd ⟨ms, gives_keyword.mp hk⟩ hls

/-- The entries read are those of the grammar. -/
theorem reads_entry : entry.ReadsAll EntryForm where
  sound h := by
    rcases gives_entry.mp h with h | h
    · obtain ⟨cells, ms, hc, h⟩ := gives_bind.mp h
      obtain ⟨b, hb, rfl⟩ := gives_map.mp h
      obtain ⟨_, rfl, ns, rfl, hL⟩ := reads_cells.sound hc
      obtain ⟨l, rfl, hl⟩ := gives_image.mp hb
      exact ⟨_, by simp, .pattern hL hl⟩
    · obtain ⟨_, ms, hk, h⟩ := gives_bind.mp h
      obtain ⟨b, hb, rfl⟩ := gives_map.mp h
      obtain rfl := gives_keyword.mp hk
      obtain ⟨l, rfl, hl⟩ := gives_image.mp hb
      exact ⟨_, rfl, .otherwise hl⟩
  complete {front e} h rest _ := by
    refine gives_entry.mpr ?_
    cases h with
    | @pattern ls cells l b hL hl =>
        refine .inl (gives_bind.mpr ⟨cells, .symbol .arrow :: l :: rest, ?_,
          gives_map.mpr ⟨b, gives_image.mpr ⟨l, rfl, hl⟩, rfl⟩⟩)
        have := reads_cells.complete ⟨ls, rfl, hL⟩ (.symbol .arrow :: l :: rest) trivial
        simpa using this
    | otherwise hl =>
        exact .inr (gives_bind.mpr ⟨(), _, gives_keyword.mpr rfl,
          gives_map.mpr ⟨_, gives_image.mpr ⟨_, rfl, hl⟩, rfl⟩⟩)

theorem reads_parameters : (parenthesized .openParen (name .parameterName)).ReadsAll
    (Bracketed .openParen .closeParen (Single Lexeme.IsName)) :=
  reads_bracketed (reads_name _) (by decide) (Single.ne_symbol nofun)

theorem EntryForm.ne_symbol {ls : List Lexeme} {e : Entry} (h : EntryForm ls e)
    (rest ms : List Lexeme) : ls ++ rest ≠ .symbol .closeBrace :: ms := by
  cases h <;> simp

theorem AssignmentForm.ne_symbol {ls : List Lexeme} {a : String × Bool} (h : AssignmentForm ls a)
    (rest ms : List Lexeme) : ls ++ rest ≠ .symbol .closeBrace :: ms := by
  cases h; simp

theorem reads_entries : (braced entry).ReadsAll
    (Bracketed .openBrace .closeBrace EntryForm) :=
  reads_bracketed reads_entry (by decide) EntryForm.ne_symbol

theorem reads_assignments : (braced assignment).ReadsAll
    (Bracketed .openBrace .closeBrace AssignmentForm) :=
  reads_bracketed reads_assignment (by decide) AssignmentForm.ne_symbol

theorem reads_operatorNames : (braced (accept .operatorName Lexeme.operatorName?)).ReadsAll
    (Bracketed .openBrace .closeBrace (Single Lexeme.NamesOperator)) :=
  reads_bracketed (reads_accept Lexeme.operatorName?_eq_some) (by decide) (Single.ne_symbol nofun)

/-- One or more names, which no comma follows. -/
theorem reads_variables : Reads (separated (name .variableName))
    (fun ls as => Listed (Single Lexeme.IsName) ls as ∧ as ≠ [])
    fun ls => True ∧ ∀ ms, ls ≠ .symbol .comma :: ms :=
  (reads_name _).separated fun _ => trivial

/-- What a name and an equals sign stand in front of. -/
theorem gives_named {what : Expectation} {part : Reader α} {f : String → α → Statement}
    {ls : List Lexeme} {st : Statement} {rest : List Lexeme} :
    Gives (name what >>= fun n => equals >>= fun _ => f n <$> part) ls st rest ↔
      ∃ n ms a, ls = .name n :: .symbol .equals :: ms ∧ part.Gives ms a rest ∧ f n a = st := by
  constructor
  · intro h
    obtain ⟨n, _, hn, h⟩ := gives_bind.mp h
    obtain ⟨_, ms, heq, h⟩ := gives_bind.mp h
    obtain ⟨a, ha, hst⟩ := gives_map.mp h
    obtain rfl := gives_name.mp hn
    obtain rfl := gives_symbol.mp heq
    exact ⟨n, ms, a, rfl, ha, hst⟩
  · rintro ⟨n, ms, a, rfl, ha, hst⟩
    exact gives_bind.mpr ⟨n, _, gives_name.mpr rfl, gives_bind.mpr ⟨(), ms, gives_symbol.mpr rfl,
      gives_map.mpr ⟨a, ha, hst⟩⟩⟩

/-- The lexemes of what defines an operator. -/
def OperatorForm (ls : List Lexeme) (o : Operator) : Prop :=
  ∃ ps es, ls = .name o.name :: .symbol .openParen :: (ps ++ .symbol .closeParen ::
      .symbol .equals :: .symbol .openBrace :: (es ++ [.symbol .closeBrace])) ∧
    Listed (Single Lexeme.IsName) ps o.parameters ∧ Listed EntryForm es o.table.entries

/-- The operators read are those of the grammar. -/
theorem reads_operator : operator.ReadsAll OperatorForm where
  sound h := by
    obtain ⟨o, _, ho, h⟩ := gives_bind.mp h
    obtain ⟨parameters, _, hp, h⟩ := gives_bind.mp h
    obtain ⟨_, _, heq, h⟩ := gives_bind.mp h
    obtain ⟨entries, he, rfl⟩ := gives_map.mp h
    obtain rfl := gives_name.mp ho
    obtain ⟨_, rfl, ps, rfl, hps⟩ := reads_parameters.sound hp
    obtain rfl := gives_symbol.mp heq
    obtain ⟨_, rfl, es, rfl, hes⟩ := reads_entries.sound he
    exact ⟨_, by simp, ps, es, rfl, hps, hes⟩
  complete {front o} hF rest _ := by
    obtain ⟨ps, es, rfl, hps, hes⟩ := hF
    have he := reads_entries.complete ⟨es, rfl, hes⟩ rest trivial
    have hp := fun tail => reads_parameters.complete ⟨ps, rfl, hps⟩ tail trivial
    have hg : operator.Gives (.name o.name :: _) o rest :=
      gives_bind.mpr ⟨o.name, _, gives_name.mpr rfl, gives_bind.mpr ⟨_, _, hp _,
        gives_bind.mpr ⟨(), _, gives_symbol.mpr rfl, gives_map.mpr ⟨_, he, rfl⟩⟩⟩⟩
    simpa using hg

/-! ### Statements -/

/-- The lexemes behind the verb of a statement, up to the semicolon. -/
def ActionForm (E : List Lexeme → Expr → Prop) (v : StatementVerb) (ls : List Lexeme)
    (st : Statement) : Prop :=
  StatementForm E (.keyword v.keyword :: (ls ++ [.symbol .semicolon])) st

/-- The lexemes behind the keywords of a definition, up to the semicolon. -/
def DefinitionForm (E : List Lexeme → Expr → Prop) (k : DefinitionKind) (ls : List Lexeme)
    (st : Statement) : Prop :=
  ActionForm E .define (.keyword k.keyword :: ls) st

section Forms

variable {E : List Lexeme → Expr → Prop}

/-- An operator is a definition of its kind. -/
theorem OperatorForm.definition {ls : List Lexeme} {o : Operator} (h : OperatorForm ls o) :
    DefinitionForm E .operator ls (.defineOperator o) := by
  obtain ⟨ps, es, rfl, hps, hes⟩ := h
  simpa [DefinitionForm, ActionForm, StatementVerb.keyword, DefinitionKind.keyword] using
    StatementForm.operator (E := E) o.name hps hes

/-- Assignments in braces make the definition of a valuation. -/
theorem definitionForm_valuation (v : String) {ls : List Lexeme}
    {assignments : List (String × Bool)}
    (h : Bracketed .openBrace .closeBrace AssignmentForm ls assignments) :
    DefinitionForm E .valuation (.name v :: .symbol .equals :: ls)
      (.defineValuation v assignments) := by
  obtain ⟨ms, rfl, hL⟩ := h
  simpa [DefinitionForm, ActionForm, StatementVerb.keyword, DefinitionKind.keyword] using
    StatementForm.valuation (E := E) v hL

/-- Names in braces make the definition of an operator set. -/
theorem definitionForm_opset (s : String) {ls : List Lexeme} {names : List String}
    (h : Bracketed .openBrace .closeBrace (Single Lexeme.NamesOperator) ls names) :
    DefinitionForm E .opset (.name s :: .symbol .equals :: ls) (.defineOpset s names) := by
  obtain ⟨ms, rfl, hL⟩ := h
  simpa [DefinitionForm, ActionForm, StatementVerb.keyword, DefinitionKind.keyword] using
    StatementForm.opset (E := E) s hL

end Forms

/-- A definition read is one of the grammar within the limit. -/
theorem definition_sound (limit : Nat) (k : DefinitionKind) :
    (definition limit k).Sound (DefinitionForm (DerivesWithin limit) k) := by
  intro ls st rest h
  cases k with
  | vars =>
      obtain ⟨names, hn, rfl⟩ := gives_map.mp h
      obtain ⟨front, rfl, hL, hne⟩ := reads_variables.sound hn
      exact ⟨front, rfl, .vars hL hne⟩
  | formula =>
      obtain ⟨f, ms, e, rfl, he, rfl⟩ := gives_named.mp h
      obtain ⟨front, rfl, hform⟩ := (reads_expression limit).sound he
      exact ⟨.name f :: .symbol .equals :: front, rfl, .formula f hform⟩
  | valuation =>
      obtain ⟨v, _, as, rfl, has, rfl⟩ := gives_named.mp h
      obtain ⟨front, rfl, hL⟩ := reads_assignments.sound has
      exact ⟨.name v :: .symbol .equals :: front, rfl, definitionForm_valuation v hL⟩
  | operator =>
      obtain ⟨o, ho, rfl⟩ := gives_map.mp h
      obtain ⟨front, rfl, hform⟩ := reads_operator.sound ho
      exact ⟨front, rfl, hform.definition⟩
  | opset =>
      obtain ⟨s, _, names, rfl, hn, rfl⟩ := gives_named.mp h
      obtain ⟨front, rfl, hL⟩ := reads_operatorNames.sound hn
      exact ⟨.name s :: .symbol .equals :: front, rfl, definitionForm_opset s hL⟩

/-- A statement read before its semicolon is one of the grammar within the limit. -/
theorem action_sound (limit : Nat) (v : StatementVerb) :
    (action limit v).Sound (ActionForm (DerivesWithin limit) v) := by
  intro ls st rest h
  cases v with
  | define =>
      obtain ⟨k, _, hk, hdef⟩ := gives_bind.mp h
      obtain ⟨l, rfl, hl⟩ := gives_accept.mp hk
      obtain rfl := Lexeme.definitionKind?_eq_some.mp hl
      obtain ⟨front, rfl, hform⟩ := definition_sound limit k hdef
      exact ⟨.keyword k.keyword :: front, rfl, hform⟩
  | evaluate =>
      obtain ⟨f, _, hf, h⟩ := gives_bind.mp h
      obtain ⟨_, _, hw, h⟩ := gives_bind.mp h
      obtain ⟨v, hv, rfl⟩ := gives_map.mp h
      obtain rfl := gives_name.mp hf
      obtain rfl := gives_keyword.mp hw
      obtain rfl := gives_name.mp hv
      exact ⟨[.name f, .keyword .under, .name v], rfl, .evaluate f v⟩
  | adequate =>
      obtain ⟨s, hs, rfl⟩ := gives_map.mp h
      obtain rfl := gives_name.mp hs
      exact ⟨[.name s], rfl, .adequate s⟩

/-- A verb and what it does, up to the semicolon. -/
theorem verb_action_sound (limit : Nat) :
    (accept .statement Lexeme.verb? >>= action limit).Sound fun ls st =>
      StatementForm (DerivesWithin limit) (ls ++ [.symbol .semicolon]) st := by
  intro ls st rest h
  obtain ⟨v, _, hverb, hact⟩ := gives_bind.mp h
  obtain ⟨l, rfl, hl⟩ := gives_accept.mp hverb
  obtain rfl := Lexeme.verb?_eq_some.mp hl
  obtain ⟨front, rfl, hform⟩ := action_sound limit v hact
  exact ⟨.keyword v.keyword :: front, rfl, hform⟩

/-- A statement read is one of the grammar within the limit. -/
theorem statement_sound (limit : Nat) :
    (statement limit).Sound (StatementForm (DerivesWithin limit)) := by
  intro ls st rest h
  obtain ⟨_, _, hst, hsemi⟩ := gives_followedBy.mp h
  obtain rfl := gives_symbol.mp hsemi
  obtain ⟨front, rfl, hform⟩ := verb_action_sound limit hst
  exact ⟨front ++ [.symbol .semicolon], by simp, hform⟩

/-- A definition that is read in front of a semicolon is a statement. -/
theorem statement_of_definition (limit : Nat) (k : DefinitionKind) {ls : List Lexeme}
    {st : Statement} {rest : List Lexeme}
    (h : (definition limit k).Gives ls st (.symbol .semicolon :: rest)) :
    (statement limit).Gives (.keyword .define :: .keyword k.keyword :: ls) st rest :=
  gives_followedBy.mpr ⟨_, (), gives_bind.mpr ⟨.define, _, gives_accept.mpr ⟨_, rfl, rfl⟩,
    gives_bind.mpr ⟨k, _, gives_accept.mpr ⟨_, rfl, Lexeme.definitionKind?_eq_some.mpr rfl⟩, h⟩⟩,
      gives_symbol.mpr rfl⟩

/-- A statement of the grammar within the limit is read, whatever follows it. -/
theorem statement_complete {limit : Nat} {front : List Lexeme} {st : Statement}
    (h : StatementForm (DerivesWithin limit) front st) (rest : List Lexeme) :
    (statement limit).Gives (front ++ rest) st rest := by
  have hname : ∀ {what n ls}, (name what).Gives (.name n :: ls) n ls := gives_name.mpr rfl
  cases h with
  | vars hL hne =>
      have hn := reads_variables.complete ⟨hL, hne⟩ (.symbol .semicolon :: rest)
        ⟨trivial, by simp⟩
      have hst := statement_of_definition limit .vars (gives_map.mpr ⟨_, hn, rfl⟩)
      simpa [DefinitionKind.keyword] using hst
  | formula f he =>
      have hn := (reads_expression limit).complete he (.symbol .semicolon :: rest)
        (endsChain_symbol (by decide) rfl rest)
      have hst := statement_of_definition limit .formula (gives_named.mpr ⟨f, _, _, rfl, hn, rfl⟩)
      simpa [DefinitionKind.keyword] using hst
  | valuation v hL =>
      have hn := reads_assignments.complete ⟨_, rfl, hL⟩ (.symbol .semicolon :: rest) trivial
      have hst := statement_of_definition limit .valuation (gives_named.mpr ⟨v, _, _, rfl, hn, rfl⟩)
      simpa [DefinitionKind.keyword] using hst
  | @operator o ps es parameters entries hp he =>
      have ho := reads_operator.complete (a := ⟨o, parameters, ⟨entries⟩⟩) ⟨ps, es, rfl, hp, he⟩
        (.symbol .semicolon :: rest) trivial
      have hst := statement_of_definition limit .operator (gives_map.mpr ⟨_, ho, rfl⟩)
      simpa [DefinitionKind.keyword] using hst
  | opset s hL =>
      have hn := reads_operatorNames.complete ⟨_, rfl, hL⟩ (.symbol .semicolon :: rest) trivial
      have hst := statement_of_definition limit .opset (gives_named.mpr ⟨s, _, _, rfl, hn, rfl⟩)
      simpa [DefinitionKind.keyword] using hst
  | evaluate f v =>
      exact gives_followedBy.mpr ⟨_, (), gives_bind.mpr ⟨.evaluate, _,
        gives_accept.mpr ⟨_, rfl, rfl⟩, gives_bind.mpr ⟨f, _, hname, gives_bind.mpr ⟨(), _,
          gives_keyword.mpr rfl, gives_map.mpr ⟨v, hname, rfl⟩⟩⟩⟩, gives_symbol.mpr rfl⟩
  | adequate s =>
      exact gives_followedBy.mpr ⟨_, (), gives_bind.mpr ⟨.adequate, _,
        gives_accept.mpr ⟨_, rfl, rfl⟩, gives_map.mpr ⟨s, hname, rfl⟩⟩, gives_symbol.mpr rfl⟩

theorem reads_statement (limit : Nat) :
    (statement limit).ReadsAll (StatementForm (DerivesWithin limit)) where
  sound := statement_sound limit
  complete h rest _ := statement_complete h rest

end Reader

/-! ### Programs -/

theorem readProgram_nil {limit : Nat} : readProgram limit [] = ⟨[], none⟩ := by
  rw [readProgram]; rfl

/-- A statement is read, and then the rest of the program. -/
theorem readProgram_of_gives {limit : Nat} {ls rest : List Lexeme} {st : Statement}
    (h : (Reader.statement limit).Gives ls st rest) :
    readProgram limit ls =
      ⟨st :: (readProgram limit rest).statements, (readProgram limit rest).refusal?⟩ := by
  have hne : ls ≠ [] := by
    rintro rfl
    exact Nat.not_lt_zero _ h.shorter
  obtain ⟨t, ht, rfl, rfl⟩ := h
  rw [readProgram, if_neg hne, ht]

/-- A program that is read to its end is a statement and a program that is. -/
theorem readProgram_eq_of_ne_nil {limit : Nat} {ls : List Lexeme} (hls : ls ≠ []) {p : Program} :
    readProgram limit ls = ⟨p, none⟩ ↔ ∃ st rest q, (Reader.statement limit).Gives ls st rest ∧
      readProgram limit rest = ⟨q, none⟩ ∧ p = st :: q := by
  rw [readProgram, if_neg hls]
  cases hst : Reader.statement limit ls with
  | error e =>
      constructor
      · rintro ⟨⟩
      · rintro ⟨_, _, _, ⟨t, ht, -⟩, -⟩
        rw [hst] at ht; cases ht
  | ok t =>
      constructor
      · intro h
        have hp : t.value :: (readProgram limit t.rest).statements = p :=
          congrArg ProgramReading.statements h
        have hr : (readProgram limit t.rest).refusal? = none := congrArg ProgramReading.refusal? h
        exact ⟨t.value, t.rest, _, ⟨t, hst, rfl, rfl⟩, by rw [← hr], hp.symm⟩
      · rintro ⟨st, rest, q, ⟨t', ht, rfl, rfl⟩, hq, rfl⟩
        rw [hst] at ht; cases ht
        dsimp only
        rw [hq]

/-- **A program is read to its end** exactly when it is one of the grammar. -/
theorem readProgram_eq_iff {limit : Nat} {ls : List Lexeme} {p : Program} :
    readProgram limit ls = ⟨p, none⟩ ↔ ProgramForm (DerivesWithin limit) ls p := by
  constructor
  · intro h
    induction hn : ls.length using Nat.strong_induction_on generalizing ls p with
    | _ n ih =>
        by_cases hls : ls = []
        · subst hls
          rw [readProgram_nil] at h
          cases h; exact .nil
        · obtain ⟨st, rest, q, hst, hq, rfl⟩ := (readProgram_eq_of_ne_nil hls).mp h
          obtain ⟨front, rfl, hform⟩ := (Reader.reads_statement limit).sound hst
          exact .cons hform (ih _ (hn ▸ hst.shorter) hq rfl)
  · intro h
    induction h with
    | nil => exact readProgram_nil
    | @cons ls ms st p hst hp ih =>
        rw [readProgram_of_gives (Reader.statement_complete hst ms), ih]

end PropBench
