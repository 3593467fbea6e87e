import PropBench.Proofs.Parser.Expression

/-!
# Proofs — Parser — Statement

The parsers of statements mirror the readers.

* `mirrors_cell`, `mirrors_entry`: the two parsers that look at a lexeme before they choose.
* `mirrors_statement`: nothing is looked for behind the semicolon of a statement.
-/

namespace PropBench

open Scan

namespace Parser

variable {α β : Type} {limit : Nat}

/-! ### Choices -/

theorem mirrors_truthValue :
    (expect .truthValue truthValue).Mirrors limit (fun _ => False) .truthValue :=
  mirrors_expect finds_truthValue .truthValue

theorem mirrors_equals : equals.Mirrors limit (fun _ => False) .equals :=
  mirrors_symbol .equals .equals

theorem mirrors_assignment : assignment.Mirrors limit (fun _ => False) .assignment :=
  (mirrors_name .variableName).bind fun _ =>
    (mirrors_symbol .colon .colon).bind fun _ => mirrors_truthValue.map _ fun _ => id

theorem mirrors_image : image.Mirrors limit (fun _ => False) .image :=
  (mirrors_symbol .arrow .arrow).bind fun _ => mirrors_truthValue

/-- The words that are the wildcard. -/
theorem ofWord_eq_wildcard_iff {w : String} : Lexeme.ofWord w = .wildcard ↔ w = "_" := by
  rw [eq_comm, ← Lexeme.isWord_iff]
  exact ⟨by rintro ⟨⟩; rfl, by rintro rfl; exact .wildcard⟩

theorem cellAt_mirrorsAt {cs : List Char} {ls : List Lexeme} (h : Faces cs ls) :
    cellAt.MirrorsAt limit (fun _ => False) (.accept .cell Lexeme.cell?) cs := by
  have hls := h.lexemes_eq
  have hvalue : (Cell.value <$> expect .cell truthValue : Parser Cell).Mirrors limit
      (fun _ => False) (Cell.value <$> .accept .cell Lexeme.truthValue?) :=
    (mirrors_expect finds_truthValue .cell).map _ fun _ => id
  -- Without a wildcard in front, a cell is a truth value.
  have hother : (∀ l ∈ ls.head?, l ≠ .wildcard) →
      Reader.accept .cell Lexeme.cell? (scan cs).lexemes =
        (Cell.value <$> .accept .cell Lexeme.truthValue? : Reader Cell) (scan cs).lexemes := by
    intro hno
    rw [hls]
    cases ls with
    | nil => rfl
    | cons l ms =>
        have hcell : l.cell? = l.truthValue?.map .value := by
          cases l with
          | wildcard => exact absurd rfl (hno _ rfl)
          | _ => rfl
        show _ = (Reader.accept .cell Lexeme.truthValue? (l :: ms)).map _
        rw [Reader.accept, Reader.accept, hcell]
        cases l.truthValue? <;> rfl
  rcases word_cases h with ⟨t, l, ms, ht, rfl, hl, hcut, hms⟩ | ⟨⟨x, hx⟩, hsymbol⟩
  · by_cases hw : t.value = "_"
    · have hwild : l = .wildcard := hl.trans (ofWord_eq_wildcard_iff.mpr hw)
      subst hwild
      have hcell : cellAt cs = .ok (t.map fun _ => .blank) := by
        simp only [cellAt, ht, hw, beq_self_eq_true, if_true]
      refine ⟨fun hg => ?_, fun he => ?_⟩
      · obtain ⟨l, heq, hc⟩ := Reader.gives_accept.mp hg
        rw [hls] at heq
        cases heq
        cases hc
        exact .inl ⟨t.rest, ⟨_, hcell, rfl, rfl⟩, hcut, hms⟩
      · have := (Reader.refuses_accept.mp he).2 .wildcard (by rw [hls]; rfl)
        cases this
    · refine (hvalue cs).congr ?_ (hother ?_)
      · simp only [cellAt, ht, beq_iff_eq, if_neg hw]
      · rintro _ ⟨⟩ hwild
        exact hw (ofWord_eq_wildcard_iff.mp (hl.symm.trans hwild))
  · refine (hvalue cs).congr ?_ (hother ?_)
    · simp only [cellAt, hx]
    · rintro l hl rfl
      obtain ⟨s, hs⟩ := hsymbol _ hl
      cases hs

theorem mirrors_cell : cell.Mirrors limit (fun _ => False) (.accept .cell Lexeme.cell?) :=
  mirrors_afterTrivia cellAt_mirrorsAt fun he => by
    obtain ⟨rfl, -⟩ := Reader.refuses_accept.mp he
    rfl

theorem mirrors_patternEntry (limit : Nat) :
    (parenthesized .entry cell >>= fun cells => Entry.pattern cells <$> image).Mirrors limit
      (fun _ => False) .patternEntry :=
  (mirrors_cell.parenthesized .entry).bind fun _ => mirrors_image.map _ fun _ => id

theorem mirrors_entry : entry.Mirrors limit (fun _ => False) .entry := by
  have hfinds := finds_keyword [.otherwise]
  have himage : (Entry.otherwise <$> image : Parser Entry).Mirrors limit (fun _ => False)
      (Entry.otherwise <$> .image) := mirrors_image.map _ fun _ => id
  intro cs
  refine mirrorsAt_of_looks hfinds (fun {l ms k} hl hk => ?yes) (fun hmiss hf => ?no)
    (fun hopen => ?opened) fun {e} he => (mirrors_patternEntry limit).atEnd_of_nil he
  case yes =>
    -- Among the lexemes only the keyword is found.
    obtain rfl : l = .keyword .otherwise := by
      cases l with
      | keyword k => cases k <;> first | rfl | cases hk
      | _ => cases hk
    obtain ⟨ds, hy, hcut, hds⟩ := hfinds.found hl hk
    obtain ⟨t, ht, -, rfl⟩ := opt_of_yields hy
    have hkeyword (u : Unit) :
        (Reader.keyword .otherwise .entry).Gives (.keyword .otherwise :: ms) u ms :=
      Reader.gives_keyword.mpr rfl
    refine ⟨fun {a rest} hg => ?_, fun {e} he => ?_⟩
    · rw [hl] at hg
      obtain ⟨_, ns, hk, ha⟩ := Reader.gives_bind.mp
        (show Reader.otherwiseEntry.Gives (.keyword .otherwise :: ms) a rest from hg)
      cases Reader.gives_keyword.mp hk
      rcases (himage t.rest).gives (hds ▸ ha) with ⟨es, ⟨v, hv, rfl, rfl⟩, hcut', hes⟩ | ⟨hfalse, -⟩
      · refine .inl ⟨v.rest, ⟨v.within (Nat.le_of_lt t.shorter), ?_, rfl, rfl⟩,
          hcut.trans hcut', hes⟩
        simp only [entry, ht, hv, Except.map]
      · exact hfalse.elim
    · rw [hl] at he
      rcases Reader.refuses_bind.mp
        (show Reader.otherwiseEntry.Refuses (.keyword .otherwise :: ms) e from he) with
        he | ⟨_, ns, hk, he⟩
      · exact absurd he ((hkeyword ()).not_refuses e)
      · cases Reader.gives_keyword.mp hk
        obtain ⟨b, hb, hends⟩ := (himage t.rest).refuses (hds ▸ he)
        refine ⟨b, ?_, hends.of_cutsAt hcut⟩
        simp only [entry, ht, hb, Except.map]
  case no =>
    refine (mirrors_patternEntry limit cs).congr ?_ (Reader.entry_eq_patternEntry fun ms hms => ?_)
    · simp only [entry, opt_of_misses hmiss]
    · cases hf (.keyword .otherwise) (by rw [hms]; rfl)
  case opened => simp only [RunsOpen, entry, opt_of_runsOpen hopen]

theorem mirrors_operator : operator.Mirrors limit (fun _ => False) .operator :=
  (mirrors_name .operatorName).bind fun _ =>
    ((mirrors_name .parameterName).parenthesized .openParen).bind fun _ =>
      mirrors_equals.bind fun _ => mirrors_entry.braced.map _ fun _ => id

theorem mirrors_operatorName :
    (expect .operatorName operatorName).Mirrors limit (fun _ => False)
      (.accept .operatorName Lexeme.operatorName?) :=
  mirrors_expect finds_operatorName .operatorName

/-! ### Statements -/

/-- A reader that goes on by the image of what it accepts. -/
theorem accept_bind_map (what : Expectation) {f : Lexeme → Option α} {k : α → β}
    {g : Lexeme → Option β} (hg : ∀ l, g l = (f l).map k) {γ : Type} (s : β → Reader γ) :
    (Reader.accept what g >>= s) = (Reader.accept what f >>= fun a => s (k a)) := by
  funext ls
  show Reader.bind _ s ls = Reader.bind _ _ ls
  unfold Reader.bind
  cases ls with
  | nil => rfl
  | cons l ls =>
      rw [Reader.accept, Reader.accept, hg]
      cases f l <;> rfl

/-- The kind of definition that a keyword announces. -/
def kindOf : Keyword → DefinitionKind
  | .variableKind => .vars
  | .formulaKind => .formula
  | .valuationKind => .valuation
  | .operatorKind => .operator
  | _ => .opset

/-- The verb that a keyword stands for. -/
def verbOf : Keyword → StatementVerb
  | .define => .define
  | .evaluate => .evaluate
  | _ => .adequate

theorem mirrors_definition (limit : Nat) (k : Keyword) :
    (definition limit k).Mirrors limit (fun _ => True) (.definition limit (kindOf k)) := by
  have hopset : (name .opsetName >>= fun s => equals >>= fun _ =>
      Statement.defineOpset s <$> braced (expect .operatorName operatorName) :
        Parser Statement).Mirrors limit (fun _ => True) (.definition limit .opset) :=
    (mirrors_name .opsetName).bind fun _ => mirrors_equals.bind fun _ =>
      mirrors_operatorName.braced.map _ fun _ => False.elim
  cases k with
  | variableKind => exact (mirrors_name .variableName).separated.map _ fun _ _ => trivial
  | formulaKind =>
      exact (mirrors_name .formulaName).bind fun _ => mirrors_equals.bind fun _ =>
        (mirrors_expression limit).map _ fun _ _ => trivial
  | valuationKind =>
      exact (mirrors_name .valuationName).bind fun _ => mirrors_equals.bind fun _ =>
        mirrors_assignment.braced.map _ fun _ => False.elim
  | operatorKind => exact mirrors_operator.map _ fun _ => False.elim
  | _ => exact hopset

theorem mirrors_action (limit : Nat) (k : Keyword) :
    (action limit k).Mirrors limit (fun _ => True) (.action limit (verbOf k)) := by
  have hadequate : (Statement.adequate <$> name .opsetName : Parser Statement).Mirrors limit
      (fun _ => True) (.action limit .adequate) :=
    (mirrors_name .opsetName).map _ fun _ => False.elim
  cases k with
  | define =>
      have hkind : Reader.action limit .define = _ :=
        accept_bind_map .definition (f := keywordIn?
          [.variableKind, .formulaKind, .valuationKind, .operatorKind, .opsetKind]) (k := kindOf)
          (fun l => by
            cases l with
            | keyword k => cases k <;> rfl
            | _ => rfl) (Reader.definition limit)
      show Mirrors limit _ _ (Reader.action limit .define)
      rw [hkind]
      exact (mirrors_expect (finds_keyword _) .definition).bind fun k => mirrors_definition limit k
  | evaluate =>
      have hunder (f : String) : (Reader.keyword .under .under >>= fun _ =>
          Statement.evaluate f <$> .name .valuationName) = _ :=
        accept_bind_map .under (f := keywordIn? [.under]) (k := fun _ => ()) (fun l => by
          cases l with
          | keyword k => cases k <;> rfl
          | _ => rfl) fun _ => Statement.evaluate f <$> .name .valuationName
      refine (mirrors_name .formulaName).bind fun f => ?_
      show Mirrors limit _ _ (Reader.keyword .under .under >>= _)
      rw [hunder f]
      exact (mirrors_expect (finds_keyword _) .under).bind fun _ =>
        (mirrors_name .valuationName).map _ fun _ => False.elim
  | _ => exact hadequate

/-- **A statement** ends with its semicolon: nothing is looked for behind it. -/
theorem mirrors_statement (limit : Nat) :
    (statement limit).Mirrors limit (fun _ => False) (.statement limit) := by
  have hverb : (Reader.accept .statement Lexeme.verb? >>= Reader.action limit) = _ :=
    accept_bind_map .statement (f := keywordIn? [.define, .evaluate, .adequate]) (k := verbOf)
      (fun l => by
        cases l with
        | keyword k => cases k <;> rfl
        | _ => rfl) (Reader.action limit)
  have haction : Mirrors limit (fun _ => True)
      (expect .statement (keyword [.define, .evaluate, .adequate]) >>= action limit)
      (.accept .statement Lexeme.verb? >>= Reader.action limit) := by
    rw [hverb]
    exact (mirrors_expect (finds_keyword _) .statement).bind (mirrors_action limit)
  exact haction.followedBy (mirrors_symbol .semicolon .semicolon)

end Parser

end PropBench
