import PropBench.Proofs.Viability.Expression

/-!
# Proofs — Viability — Statement

What the statement reader has read when it refuses begins a statement (`advances_statement`), and
what has been read of a program that is refused begins a program (`readProgram_within`).
-/

namespace PropBench

namespace Reader

section Statements

theorem advances_truthValue : truthValue.Advances (Single Lexeme.Denotes) :=
  advances_accept fun _ hl => hl.imp fun _ hb => .mk hb

theorem advances_image :
    image.Advances fun ls b => ∃ l, ls = [.symbol .arrow, l] ∧ Lexeme.Denotes l b := by
  refine advances_symbol_bind (fun _ h => h) (advances_accept fun l hl => ?_)
  obtain ⟨b, hb⟩ := hl
  exact ⟨b, l, rfl, hb⟩

theorem advances_assignment : assignment.Advances AssignmentForm := by
  refine advances_name_bind (fun _ h => h) fun x => advances_symbol_bind (fun _ h => h) ?_
  refine advances_truthValue.map _ ?_
  rintro _ b ⟨hl⟩
  exact .mk x hl

theorem opens_entry {l : Lexeme} (hl : Expectation.entry.Describes l) : Opens EntryForm [l] := by
  rcases hl with rfl | rfl
  · exact ⟨[.symbol .closeParen, .symbol .arrow, .symbol .one], _, .pattern .nil .one⟩
  · exact ⟨[.symbol .arrow, .symbol .one], _, .otherwise .one⟩

/-- The cells of a pattern, the opening parenthesis taken. -/
theorem advances_cells :
    (closed (accept .cell Lexeme.cell?) .closeParen .commaOrParen).Advances fun tail e =>
      EntryForm (.symbol .openParen :: tail) e := by
  have hcell : (accept .cell Lexeme.cell?).Advances (Single Lexeme.IsCell) :=
    advances_accept fun _ hl => hl.imp fun _ hc => .mk hc
  have hcells : (closed (accept .cell Lexeme.cell?) .closeParen .commaOrParen).Advances _ :=
    hcell.closed (sound_accept Lexeme.cell?_eq_some.mp) fun _ h => h
  intro ls e he
  refine (hcells ls e he).imp ?_
  rintro front ⟨tail, cells, ms, hms, hL⟩
  refine ⟨tail ++ [.symbol .arrow, .symbol .one], .pattern cells true, ?_⟩
  have := EntryForm.pattern hL .one
  rw [← List.append_assoc, hms]
  simpa using this

/-- The first lexeme of a pattern may also begin an entry of the other kind. -/
theorem advances_patternEntry : patternEntry.Advances EntryForm := by
  have hopen : (symbol .openParen .entry).Advances EntryForm := fun ls e he => by
    obtain ⟨rfl, -⟩ := refuses_symbol.mp he
    exact ⟨[], rfl, fun l hl => opens_entry hl⟩
  have hsymbol : (symbol .openParen .entry).Sound fun ls _ => ls = [.symbol .openParen] :=
    fun h => ⟨[_], gives_symbol.mp h, rfl⟩
  have hcells : (parenthesized .entry (accept .cell Lexeme.cell?)).Advances EntryForm := by
    refine hopen.andThen hsymbol ?_
    rintro _ _ rfl
    exact advances_cells
  refine hcells.andThen reads_cells.sound ?_
  rintro _ cells ⟨ms, rfl, hL⟩
  refine advances_image.map _ ?_
  rintro _ b ⟨l, rfl, hl⟩
  have := EntryForm.pattern hL hl
  simpa using this

/-- An entry that is refused was on its way to one. -/
theorem advances_entry : entry.Advances EntryForm := by
  intro ls e he
  by_cases hls : ∃ ms, ls = .keyword .otherwise :: ms
  · obtain ⟨ms, rfl⟩ := hls
    have hother : otherwiseEntry.Refuses (.keyword .otherwise :: ms) e := he
    rcases refuses_bind.mp hother with he | ⟨_, ns, hk, he⟩
    · have hgives : (keyword .otherwise .entry).Gives (.keyword .otherwise :: ms) () ms :=
        gives_keyword.mpr rfl
      exact absurd he (hgives.not_refuses e)
    · cases gives_keyword.mp hk
      refine (advances_image ms e (refuses_map.mp he)).lift_cons _ ?_
      rintro front ⟨tail, b, l, htail, hl⟩
      exact ⟨tail, .otherwise b, by rw [List.cons_append, htail]; exact .otherwise hl⟩
  · rw [Refuses, entry_eq_patternEntry fun ms h => hls ⟨ms, h⟩] at he
    exact advances_patternEntry ls e he

theorem advances_operator : operator.Advances OperatorForm := by
  have hparameters : (parenthesized .openParen (name .parameterName)).Advances
      (Bracketed .openParen .closeParen (Single Lexeme.IsName)) :=
    (advances_name .parameterName fun _ h => h).bracketed (sound_name _) (fun _ h => h) fun _ h => h
  have hentries : (braced entry).Advances (Bracketed .openBrace .closeBrace EntryForm) :=
    advances_entry.bracketed reads_entry.sound (fun _ h => h) fun _ h => h
  refine advances_name_bind (fun _ h => h) fun o => hparameters.bind reads_parameters.sound ?_
  rintro _ parameters ⟨ps, rfl, hps⟩
  refine advances_symbol_bind (fun _ h => h) (hentries.map _ ?_)
  rintro _ entries ⟨es, rfl, hes⟩
  exact ⟨ps, es, by simp, hps, hes⟩

/-- What a name and an equals sign stand in front of. -/
theorem Advances.named {part : Reader α} (h : part.Advances F) (what : Expectation)
    (hwhat : ∀ l, what.Describes l → ∃ n, l = .name n) {f : String → α → Statement}
    {H : List Lexeme → Statement → Prop}
    (hH : ∀ n ls a, F ls a → H (.name n :: .symbol .equals :: ls) (f n a)) :
    (name what >>= fun n => equals >>= fun _ => f n <$> part).Advances H :=
  advances_name_bind hwhat fun n => advances_symbol_bind (fun _ h => h) (h.map (f n) (hH n))

theorem advances_definition (limit : Nat) (k : DefinitionKind) :
    (definition limit k).Advances (DefinitionForm DerivesFreely k) := by
  cases k with
  | vars =>
      have hnames : Advances (separated (name .variableName)) _ :=
        advances_separated (advances_name .variableName fun _ h => h) (sound_name _)
      refine hnames.map _ ?_
      rintro ls names ⟨hL, hne⟩
      exact .vars hL hne
  | formula =>
      exact (advances_expression limit).named .formulaName (fun _ h => h)
        fun f ls e h => .formula f h
  | valuation =>
      have h : (braced assignment).Advances _ :=
        advances_assignment.bracketed reads_assignment.sound (fun _ h => h) fun _ h => h
      exact h.named .valuationName (fun _ h => h) fun v ls as h => definitionForm_valuation v h
  | operator => exact advances_operator.map _ fun ls o h => h.definition
  | opset =>
      have hname : (accept .operatorName Lexeme.operatorName?).Advances
          (Single Lexeme.NamesOperator) := advances_accept fun l hl => by
        obtain ⟨n, rfl⟩ := hl
        exact ⟨n, .mk (.name n)⟩
      have h : (braced (accept .operatorName Lexeme.operatorName?)).Advances _ :=
        hname.bracketed (sound_accept Lexeme.operatorName?_eq_some.mp) (fun _ h => h) fun _ h => h
      exact h.named .opsetName (fun _ h => h) fun s ls names h => definitionForm_opset s h

/-- A statement that is refused before its semicolon was on its way to one. -/
theorem advances_action (limit : Nat) (v : StatementVerb) :
    (action limit v).Advances (ActionForm DerivesFreely v) := by
  cases v with
  | define =>
      refine advances_accept_bind (fun l hl => ?_) fun l k hl => ?_
      · obtain ⟨k, rfl⟩ := hl
        exact ⟨k, Lexeme.definitionKind?_eq_some.mpr rfl⟩
      · obtain rfl := Lexeme.definitionKind?_eq_some.mp hl
        exact advances_definition limit k
  | evaluate =>
      refine advances_name_bind (fun _ h => h) fun f => advances_keyword_bind (fun _ h => h) ?_
      refine (advances_name .valuationName fun _ h => h).map _ ?_
      rintro _ v ⟨⟨⟩⟩
      exact .evaluate f v
  | adequate =>
      refine (advances_name .opsetName fun _ h => h).map _ ?_
      rintro _ s ⟨⟨⟩⟩
      exact .adequate s

/-- **What a statement reader has read when it refuses begins a statement.** -/
theorem advances_statement (limit : Nat) :
    (statement limit).Advances (StatementForm DerivesFreely) := by
  have hverb : (accept .statement Lexeme.verb? >>= action limit).Advances fun ls st =>
      StatementForm DerivesFreely (ls ++ [.symbol .semicolon]) st := by
    refine advances_accept_bind (fun l hl => ?_) fun l v hl => ?_
    · obtain ⟨v, rfl⟩ := hl
      exact ⟨v, Lexeme.verb?_eq_some.mpr rfl⟩
    · obtain rfl := Lexeme.verb?_eq_some.mp hl
      exact advances_action limit v
  have hsound : (accept .statement Lexeme.verb? >>= action limit).Sound fun ls st =>
      StatementForm DerivesFreely (ls ++ [.symbol .semicolon]) st := fun h => by
    obtain ⟨front, rfl, hform⟩ := verb_action_sound limit h
    exact ⟨front, rfl, hform.mono fun _ _ he => he.freely⟩
  have hsemi : (symbol .semicolon .semicolon).Advances _ := advances_symbol fun _ h => h
  refine hverb.followedBy hsound hsemi ?_
  rintro front st _ - hform rfl
  exact hform

end Statements

end Reader

/-! ### Programs -/

/-- **What is read in front of a refusal begins a program**, and so it does with any lexeme behind
that is expected there. -/
theorem readProgram_within {limit : Nat} {ls : List Lexeme} {e : Refusal}
    (h : (readProgram limit ls).refusal? = some e) : e.Within (ProgramForm DerivesFreely) ls := by
  induction hn : ls.length using Nat.strong_induction_on generalizing ls with
  | _ n ih =>
      obtain ⟨-, he | ⟨st, rest, hst, he⟩⟩ := readProgram_refusal?_eq_some.mp h
      · refine (Reader.advances_statement limit ls e he).imp ?_
        rintro front ⟨tail, st, hform⟩
        exact ⟨tail, [st], by simpa using ProgramForm.cons hform .nil⟩
      · have hlt := hst.shorter
        obtain ⟨front, rfl, hform⟩ := Reader.statement_sound limit hst
        refine (ih _ (hn ▸ hlt) he rfl).lift front ?_
        rintro ls ⟨tail, p, hp⟩
        refine ⟨tail, st :: p, ?_⟩
        rw [List.append_assoc]
        exact .cons (hform.mono fun _ _ he => he.freely) hp

end PropBench
