import PropBench.Proofs.Source.Parsing

/-!
# Proofs — Source — Printing

The written form of an expression, read again.

* `Expr.Named.exists_prints`: the written form of an expression whose names are identifiers spells
  lexemes that the grammar derives the expression from, with no more nesting than the expression
  is deep.
* `ProgramForm.formula_named`: the formulas of a program that a text spells have such names.
* `parse_written_form`: so every expression that could be read is read again from its written form.
-/

namespace PropBench

/-! ### Identifiers -/

/-- The characters of a word. -/
def isWordText : List Char → Bool
  | c :: w => isWordStart c && w.all isWordChar
  | [] => false

/-- A word that is no keyword, in any case, and not the wildcard. -/
structure IsIdentifier (x : String) : Prop where
  isWord : isWordText x.toList = true
  ne_keyword : ∀ k : Keyword, k.text ≠ x.toUpper
  ne_wildcard : x ≠ "_"

/-- A word that is a name is neither reserved nor the wildcard. -/
theorem Lexeme.IsWord.of_name {word x : String} (h : IsWord word (.name x)) :
    x = word ∧ (∀ k : Keyword, k.text ≠ word.toUpper) ∧ word ≠ "_" := by
  cases h with
  | name hk hw => exact ⟨rfl, hk, hw⟩

/-- An identifier is a word that is scanned as a name. -/
theorem isIdentifier_iff {x : String} :
    IsIdentifier x ↔ isWordText x.toList = true ∧ Lexeme.ofWord x = .name x := by
  constructor
  · intro h
    exact ⟨h.isWord, (Lexeme.isWord_iff.mp (.name h.ne_keyword h.ne_wildcard)).symm⟩
  · rintro ⟨hw, hl⟩
    obtain ⟨-, hk, hne⟩ := (Lexeme.isWord_iff.mpr hl.symm).of_name
    exact ⟨hw, hk, hne⟩

instance (x : String) : Decidable (IsIdentifier x) := decidable_of_iff _ isIdentifier_iff.symm

/-- The names of variables, formulas and operators in an expression satisfy `P`. -/
inductive Expr.Named (P : String → Prop) : Expr → Prop
  | var {x : String} (h : P x) : Named P (.var x)
  | formula {f : String} (h : P f) : Named P (.formula f)
  | not {e : Expr} (h : Named P e) : Named P (.not e)
  | binary {c : Binary} {l r : Expr} (hl : Named P l) (hr : Named P r) : Named P (.binary c l r)
  | apply {o : String} {args : List Expr} (ho : P o) (h : ∀ a ∈ args, Named P a) :
      Named P (.apply o args)

theorem IsIdentifier.isWord_name {x : String} (h : IsIdentifier x) : Lexeme.IsWord x (.name x) :=
  .name h.ne_keyword h.ne_wildcard

/-! ### Spelled texts -/

/-- A text that ends no word. -/
def EndsWord (cs : List Char) : Prop := ∀ d ∈ cs.head?, isWordChar d = false

theorem endsWord_cons {c : Char} (hc : isWordChar c = false) (cs : List Char) :
    EndsWord (c :: cs) := by
  rintro d ⟨⟩; exact hc

theorem spells_blank {cs : List Char} {ls : List Lexeme} (h : Spells cs ls) :
    Spells (' ' :: cs) ls := .blank (by decide) h

/-- A text that spells the lexemes in front of any that ends a word. -/
def Prints (text : String) (ls : List Lexeme) : Prop :=
  ∀ (cs : List Char) (ms : List Lexeme), EndsWord cs → Spells cs ms →
    Spells (text.toList ++ cs) (ls ++ ms)

/-- A word prints its lexeme. -/
theorem prints_word {x : String} {l : Lexeme} (hx : isWordText x.toList = true)
    (hl : l.IsWord x) : Prints x [l] := by
  intro cs ms hend hs
  have hof : String.ofList x.toList = x := String.ofList_toList
  cases hlist : x.toList with
  | nil => rw [hlist] at hx; cases hx
  | cons c w =>
      rw [hlist] at hx hof
      obtain ⟨hc, hw⟩ := Bool.and_eq_true_iff.mp hx
      exact .word hc (List.all_eq_true.mp hw) hend (hof.symm ▸ hl) hs

theorem prints_identifier {x : String} (h : IsIdentifier x) : Prints x [.name x] :=
  prints_word h.isWord h.isWord_name

theorem prints_keyword (k : Keyword) : Prints k.text [.keyword k] := by
  have hword : isWordText k.text.toList = true := by cases k <;> decide +kernel
  have hupper : k.text = k.text.toUpper := by cases k <;> decide +kernel
  exact prints_word hword (.keyword hupper)

/-! ### Expressions -/

/-- The symbol of a connective. -/
def Binary.symbol : Binary → Symbol
  | .and => .ampersand
  | .or => .bar
  | .implies => .arrow
  | .iff => .doubleArrow

theorem Binary.sign_toList (c : Binary) : c.sign.toList = c.symbol.chars := by
  cases c <;> decide

theorem Binary.signs_symbol (c : Binary) : (Lexeme.symbol c.symbol).Signs c := by
  cases c <;> constructor

/-- Two operands of negations' level make a chain. -/
theorem Derives.binary {n : Nat} {l : Lexeme} {c : Binary} (hl : l.Signs c)
    {ls rs : List Lexeme} {e f : Expr} (he : Derives 5 n ls e) (hf : Derives 5 n rs f) :
    Derives 1 n (ls ++ l :: rs) (.binary c e f) := by
  have hle := c.binding_le
  cases hc : c.groupsRight with
  | true =>
      have h := Derives.right hl (rightLevel_iff.mpr ⟨hc, rfl⟩) (he.loosen (by omega))
        (hf.loosen (by omega))
      exact h.loosen c.one_le_binding
  | false =>
      have h := Derives.left hl (leftLevel_iff.mpr ⟨hc, rfl⟩) (he.loosen (by omega))
        (hf.loosen (by omega))
      exact h.loosen c.one_le_binding

/-- The written forms of a list of expressions, with a comma and a blank between. -/
theorem exists_prints_list {n : Nat} {args : List Expr}
    (h : ∀ a ∈ args, ∃ ls, Derives 1 n ls a ∧ Prints a.text ls) :
    ∃ ls, Listed (Derives 1 n) ls args ∧ Prints (", ".intercalate (Expr.textList args)) ls := by
  induction args with
  | nil => exact ⟨[], .nil, fun _ _ _ hs => hs⟩
  | cons a args ih =>
      obtain ⟨ls, ha, hp⟩ := h a (by simp)
      obtain ⟨ms, hms, hps⟩ := ih fun b hb => h b (by simp [hb])
      cases args with
      | nil =>
          refine ⟨ls, .single ha, ?_⟩
          rw [Expr.textList, Expr.textList, String.intercalate_singleton]; exact hp
      | cons b args =>
          refine ⟨ls ++ .symbol .comma :: ms, .cons ha hms (by simp), ?_⟩
          intro cs ns hend hs
          have htail : Spells (',' :: ' ' :: _) (.symbol .comma :: (ms ++ ns)) :=
            .symbol .comma (.blank (by decide) (hps cs ns hend hs))
          have := hp _ _ (endsWord_cons (by decide) _) htail
          rw [Expr.textList] at this ⊢
          rw [Expr.textList, String.intercalate_cons_cons]
          simpa [String.toList_append] using this

theorem prints_formula {f : String} (h : IsIdentifier f) :
    Prints (Expr.formula f).text [.symbol .atSign, .name f] := by
  intro cs ms hend hs
  rw [Expr.text, String.toList_append]
  exact .symbol .atSign (prints_identifier h cs ms hend hs)

/-- A negation prints its sign and the operand. -/
theorem Prints.not {e : Expr} {ls : List Lexeme} (h : Prints e.text ls) :
    Prints (Expr.not e).text (.symbol .bang :: ls) := by
  intro cs ms hend hs
  rw [Expr.text, String.toList_append]
  exact .symbol .bang (h cs ms hend hs)

/-- The parentheses and blanks of a binary expression end the words of its operands. -/
theorem Prints.binary {l r : Expr} {ls rs : List Lexeme} (hl : Prints l.text ls)
    (hr : Prints r.text rs) (c : Binary) :
    Prints (Expr.binary c l r).text
      (.symbol .openParen :: (ls ++ .symbol c.symbol :: rs ++ [.symbol .closeParen])) := by
  intro cs ms _ hs
  have hclose : Spells (')' :: cs) (.symbol .closeParen :: ms) := .symbol .closeParen hs
  have hright := hr _ _ (endsWord_cons (by decide) cs) hclose
  have hsign : Spells (' ' :: (c.symbol.chars ++ ' ' :: (r.text.toList ++ ')' :: cs))) _ :=
    .blank (by decide) (.symbol c.symbol (.blank (by decide) hright))
  have hleft := hl _ _ (endsWord_cons (by decide) _) hsign
  have hopen : Spells ('(' :: _) _ := .symbol .openParen hleft
  rw [← c.sign_toList] at hopen
  simpa [Expr.text, String.toList_append] using hopen

/-- An application prints its name and the arguments in parentheses. -/
theorem Prints.apply {o : String} (ho : IsIdentifier o) {args : List Expr} {ls : List Lexeme}
    (h : Prints (", ".intercalate (Expr.textList args)) ls) :
    Prints (Expr.apply o args).text
      (.name o :: .symbol .openParen :: (ls ++ [.symbol .closeParen])) := by
  intro cs ms _ hs
  have hclose : Spells (')' :: cs) (.symbol .closeParen :: ms) := .symbol .closeParen hs
  have hopen : Spells ('(' :: _) _ :=
    .symbol .openParen (h _ _ (endsWord_cons (by decide) cs) hclose)
  have := prints_identifier ho _ _ (endsWord_cons (by decide) _) hopen
  simpa [Expr.text, String.toList_append] using this

/-- An expression over identifiers prints as lexemes that derive it. -/
theorem Expr.Named.exists_prints {e : Expr} (he : e.Named IsIdentifier) :
    ∀ n, e.depth ≤ n → ∃ ls, Derives 5 n ls e ∧ Prints e.text ls := by
  -- The nesting allowed is the depth: a connective and an application each take one of both.
  induction he with
  | @var x h => exact fun n _ => ⟨[.name x], (Derives.var n x).tighter, prints_identifier h⟩
  | @formula f h => exact fun n _ => ⟨_, (Derives.formula n f).tighter, prints_formula h⟩
  | @not e _ ih =>
      intro n hn
      rw [Expr.depth] at hn
      obtain ⟨ls, hd, hp⟩ := ih n (by omega)
      exact ⟨_, .not .bang hd, hp.not⟩
  | @binary c l r _ _ ihl ihr =>
      intro n hn
      rw [Expr.depth] at hn
      obtain ⟨m, rfl⟩ : ∃ m, n = m + 1 := ⟨n - 1, by omega⟩
      obtain ⟨ls, hl, hpl⟩ := ihl m (by omega)
      obtain ⟨rs, hr, hpr⟩ := ihr m (by omega)
      exact ⟨_, (Derives.parens (hl.binary c.signs_symbol hr)).tighter, hpl.binary hpr c⟩
  | @apply o args ho hargs ih =>
      intro n hn
      rw [Expr.depth] at hn
      obtain ⟨m, rfl⟩ : ∃ m, n = m + 1 := ⟨n - 1, by omega⟩
      obtain ⟨ls, hL, hp⟩ := exists_prints_list fun a ha => by
        obtain ⟨ls, hd, hp⟩ := ih a ha m (by have := Expr.depth_le_depthList ha; omega)
        exact ⟨ls, hd.loosen (by decide), hp⟩
      exact ⟨_, (Derives.apply_listed o hL).tighter, .apply ho hp⟩

/-! ### Definitions of formulas -/

/-- The text that defines a formula. -/
def formulaText (f : String) (e : Expr) : String := "DEFINE FORMULA " ++ f ++ " = " ++ e.text ++ ";"

theorem toList_between {x y z : String} {a b c : List Char} (hx : x.toList = a) (hy : y.toList = b)
    (hz : z.toList = c) (s t : String) :
    (x ++ s ++ y ++ t ++ z).toList = a ++ (s.toList ++ (b ++ (t.toList ++ c))) := by
  subst hx hy hz; simp [String.toList_append]

/-- The text of a definition, character by character. -/
theorem toList_formulaText (f : String) (e : Expr) :
    (formulaText f e).toList = Keyword.define.text.toList ++ ' ' ::
      (Keyword.formulaKind.text.toList ++ ' ' ::
        (f.toList ++ ' ' :: '=' :: ' ' :: (e.text.toList ++ [';']))) := by
  have hdefine : "DEFINE FORMULA ".toList =
      Keyword.define.text.toList ++ ' ' :: (Keyword.formulaKind.text.toList ++ [' ']) := by
    decide +kernel
  have hequals : " = ".toList = [' ', '=', ' '] := by decide +kernel
  have hsemi : ";".toList = [';'] := by decide +kernel
  refine (toList_between hdefine hequals hsemi f e.text).trans ?_
  generalize Keyword.define.text.toList = define
  generalize Keyword.formulaKind.text.toList = kind
  simp

/-- The lexemes of the text that defines a formula. -/
theorem spells_formulaText {f : String} (hf : IsIdentifier f) {e : Expr} {ls : List Lexeme}
    (hp : Prints e.text ls) :
    Spells (formulaText f e).toList
      (.keyword .define :: .keyword .formulaKind :: .name f :: .symbol .equals ::
        (ls ++ [.symbol .semicolon])) := by
  have hsemi : Spells [';'] [.symbol .semicolon] := .symbol .semicolon .nil
  have hexpr := hp _ _ (endsWord_cons (by decide) []) hsemi
  have hequals : Spells (' ' :: '=' :: ' ' :: (e.text.toList ++ [';']))
      (.symbol .equals :: (ls ++ [.symbol .semicolon])) :=
    .blank (by decide) (.symbol .equals (.blank (by decide) hexpr))
  have hname := prints_identifier hf _ _ (endsWord_cons (by decide) _) hequals
  have hkind := prints_keyword .formulaKind _ _ (endsWord_cons (by decide) _) (spells_blank hname)
  have hdefine := prints_keyword .define _ _ (endsWord_cons (by decide) _) (spells_blank hkind)
  rw [toList_formulaText]
  exact hdefine

/-- The text of a definition within the limit is read as the definition. -/
theorem parseProgram_formulaText {limit : Nat} {f : String} {e : Expr} (hf : IsIdentifier f)
    (he : e.Named IsIdentifier) (hd : e.depth ≤ limit) :
    parseProgram limit (formulaText f e) = .ok [.defineFormula f e] := by
  obtain ⟨ls, hderives, hp⟩ := he.exists_prints limit hd
  have hform := StatementForm.formula f (E := DerivesWithin limit) ⟨hderives.loosen (by decide), hd⟩
  have hprogram := ProgramForm.cons hform .nil
  rw [List.append_nil] at hprogram
  exact parseProgram_eq_ok_iff.mpr ⟨_, spells_formulaText hf hp, hprogram⟩

/-! ### The names of a text -/

/-- The names that a text spells are identifiers. -/
theorem Spells.isIdentifier {cs : List Char} {ls : List Lexeme} (h : Spells cs ls) {x : String}
    (hx : .name x ∈ ls) : IsIdentifier x := by
  induction h with
  | nil => cases hx
  | blank _ _ ih | lineComment _ _ _ ih | blockComment _ _ ih => exact ih hx
  | @word c w cs l ls hc hw _ hl _ ih =>
      rcases List.mem_cons.mp hx with rfl | hx
      · obtain ⟨rfl, hk, hne⟩ := hl.of_name
        refine ⟨?_, hk, hne⟩
        rw [String.toList_ofList]
        exact Bool.and_eq_true_iff.mpr ⟨hc, List.all_eq_true.mpr hw⟩
      · exact ih hx
  | symbol s _ ih =>
      rcases List.mem_cons.mp hx with h | hx
      · cases h
      · exact ih hx

theorem mem_commaSeparated {parts : List (List Lexeme)} {ls : List Lexeme} (hls : ls ∈ parts)
    {l : Lexeme} (hl : l ∈ ls) : l ∈ commaSeparated parts := by
  induction parts with
  | nil => cases hls
  | cons ms parts ih =>
      cases parts with
      | nil => rw [List.mem_singleton.mp hls] at hl; exact hl
      | cons ns parts =>
          rw [commaSeparated, List.mem_append, List.mem_cons]
          rcases List.mem_cons.mp hls with rfl | h
          · exact .inl hl
          · exact .inr (.inr (ih h))

/-- The names of a derived expression are among its lexemes. -/
theorem Derives.named {P : String → Prop} {b n : Nat} {ls : List Lexeme} {e : Expr}
    (h : Derives b n ls e) (hP : ∀ x, .name x ∈ ls → P x) : e.Named P := by
  induction h with
  | tighter _ ih => exact ih hP
  | right _ _ _ _ ihe ihf | left _ _ _ _ ihe ihf =>
      exact .binary (ihe fun x hx => hP x (by simp [hx])) (ihf fun x hx => hP x (by simp [hx]))
  | not _ _ ih => exact .not (ih fun x hx => hP x (by simp [hx]))
  | var _ x => exact .var (hP x (by simp))
  | formula _ f => exact .formula (hP f (by simp))
  | parens _ ih => exact ih fun x hx => hP x (by simp [hx])
  | @apply n o parts _ ih =>
      refine .apply (hP o (by simp)) fun a ha => ?_
      obtain ⟨p, hp, rfl⟩ := List.mem_map.mp ha
      refine ih p hp fun x hx => hP x ?_
      have := mem_commaSeparated (List.mem_map_of_mem hp) hx
      simp [this]

/-- A definition of a formula in a program stands among its lexemes. -/
theorem ProgramForm.exists_formula {E : List Lexeme → Expr → Prop} {ls : List Lexeme} {p : Program}
    (h : ProgramForm E ls p) {f : String} {e : Expr} (hmem : .defineFormula f e ∈ p) :
    ∃ ms, E ms e ∧ .name f ∈ ls ∧ ∀ l ∈ ms, l ∈ ls := by
  induction h with
  | nil => cases hmem
  | @cons ls ns st p hst _ ih =>
      rcases List.mem_cons.mp hmem with rfl | hmem
      · cases hst with
        | @formula _ ms _ hE => exact ⟨ms, hE, by simp, fun l hl => by simp [hl]⟩
      · obtain ⟨ms, hE, hf, hms⟩ := ih hmem
        exact ⟨ms, hE, List.mem_append_right _ hf, fun l hl => List.mem_append_right _ (hms l hl)⟩

/-- A formula that is read names identifiers, and is within the limit. -/
theorem formula_of_parseProgram {limit : Nat} {source : String} {p : Program}
    (h : parseProgram limit source = .ok p) {f : String} {e : Expr}
    (hmem : .defineFormula f e ∈ p) :
    IsIdentifier f ∧ e.Named IsIdentifier ∧ e.depth ≤ limit := by
  obtain ⟨ls, hs, hp⟩ := parseProgram_eq_ok_iff.mp h
  obtain ⟨ms, ⟨hd, hle⟩, hf, hms⟩ := hp.exists_formula hmem
  exact ⟨hs.isIdentifier hf, hd.named fun x hx => hs.isIdentifier (hms _ hx), hle⟩

/-- **Parsing undoes printing**, of every expression with identifiers for names that is within the
limit, and so of every formula of a text that is parsed. -/
theorem parse_written_form (limit : Nat) :
    (∀ f e, IsIdentifier f → e.Named IsIdentifier → e.depth ≤ limit →
      parseProgram limit (formulaText f e) = .ok [.defineFormula f e]) ∧
    ∀ source p f e, parseProgram limit source = .ok p → .defineFormula f e ∈ p →
      (e.Named IsIdentifier ∧ e.depth ≤ limit) ∧
        ∀ g, IsIdentifier g → parseProgram limit (formulaText g e) = .ok [.defineFormula g e] := by
  refine ⟨fun f e hf he hd => parseProgram_formulaText hf he hd, fun source p f e h hmem => ?_⟩
  obtain ⟨-, he, hd⟩ := formula_of_parseProgram h hmem
  exact ⟨⟨he, hd⟩, fun g hg => parseProgram_formulaText hg he hd⟩

/-- A negation, a nullary application and a reference, at the limit. -/
theorem parse_written_implication :
    let e : Expr :=
      .binary .implies (.not (.var "p")) (.apply "nand" [.formula "g", .apply "top" []])
    parseProgram 3 (formulaText "f" e) = .ok [.defineFormula "f" e] ∧
      (e.Named IsIdentifier ∧ e.depth ≤ 3) ∧
        parseProgram 3 (formulaText "h" e) = .ok [.defineFormula "h" e] := by
  intro e
  have he : e.Named IsIdentifier := by
    refine .binary (.not (.var (by decide +kernel))) (.apply (by decide +kernel) fun a ha => ?_)
    rcases List.mem_cons.mp ha with rfl | ha
    · exact .formula (by decide +kernel)
    · rw [List.mem_singleton.mp ha]
      exact .apply (by decide +kernel) (by simp)
  have hf := (parse_written_form 3).1 "f" e (by decide +kernel) he (by decide)
  obtain ⟨hnamed, hg⟩ := (parse_written_form 3).2 _ _ "f" e hf (by simp)
  exact ⟨hf, hnamed, hg "h" (by decide +kernel)⟩

end PropBench
