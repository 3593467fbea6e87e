import PropBench.Proofs.Viability.Reader

/-!
# Proofs — Viability — Expression

What a reader of expressions has read when it refuses begins an expression (`advances_chain`).  What
is nested within the limit is completed with one more pair of parentheses at most.
-/

namespace PropBench

/-- The lexemes of an operand, at a level and with a bound on the nesting. -/
def OperandOf (b n : Nat) (ls : List Lexeme) (o : Operand) : Prop := Derives b n ls o.expr

/-- What is read within the limit is an operand of the grammar, whatever the limit. -/
theorem OperandForm.operandOf {limit b n : Nat} {ls : List Lexeme} {o : Operand}
    (h : OperandForm limit b n ls o) : OperandOf b (n + 1) ls o := by
  obtain ⟨e, rfl, he, -⟩ := h
  exact he.nest (Nat.le_succ n)

/-- The nesting that a reader of chains is allowed is enough for what it has read to be completed,
together with one pair of parentheses. -/
theorem derives_parens_var (n : Nat) :
    Derives 5 (n + 1) [.symbol .openParen, .name "x", .symbol .closeParen] (.var "x") :=
  (Derives.parens ((Derives.var n "x").loosen (by decide))).tighter

namespace Reader

section Expressions

variable {limit n : Nat} {r : Reader Operand}

/-- A reader of operands within the limit reads operands of the grammar. -/
theorem Reads.sound_operandOf {b : Nat} {Follow : List Lexeme → Prop}
    (h : r.Reads (OperandForm limit b n) Follow) : r.Sound (OperandOf b (n + 1)) := by
  intro ls o rest hg
  obtain ⟨front, rfl, hF⟩ := h.sound hg
  exact ⟨front, rfl, hF.operandOf⟩

/-- A reader that advances expressions advances operands. -/
theorem Advances.operandOf {b : Nat} (h : r.Advances (Derives b n)) :
    r.Advances (OperandOf b n) := by
  intro ls e he
  refine (h ls e he).imp ?_
  rintro front ⟨tail, x, hx⟩
  exact ⟨tail, .of x, hx⟩

/-- A chain and the parenthesis that closes it. -/
theorem advances_inParens (h : r.Advances (Derives 1 n)) (hs : r.Sound (OperandOf 1 n)) :
    (inParens r).Advances fun ls o => OperandOf 5 (n + 1) (.symbol .openParen :: ls) o := by
  have hclose : (symbol .closeParen .closeParen).Advances _ := advances_symbol fun _ h => h
  refine h.operandOf.followedBy hs hclose ?_
  rintro front o _ - hF rfl
  exact (Derives.parens hF).tighter

/-- The arguments of an application and the parenthesis that closes them. -/
theorem advances_arguments (h : r.Advances (Derives 1 n)) (hs : r.Sound (OperandOf 1 n))
    (x : String) :
    (arguments r).Advances fun ls e =>
      Derives 5 (n + 1) (.name x :: .symbol .openParen :: ls) e := by
  intro ls e he
  have hargs : (arguments r).Advances _ := h.operandOf.closed hs fun _ h => h
  refine (hargs ls e he).imp ?_
  rintro front ⟨tail, os, ms, hms, hL⟩
  refine ⟨tail, .apply x (os.map Operand.expr), ?_⟩
  rw [hms]
  exact (Derives.apply_listed x (hL.map _ fun _ _ h => h)).tighter

/-- What may begin a primary or a negation begins an operand. -/
theorem opens_operand {l : Lexeme} (hl : Expectation.expression.Describes l) :
    Opens (Derives 5 (n + 1)) [l] := by
  have hvar : Derives 5 (n + 1) [.name "x"] (.var "x") := (Derives.var _ "x").tighter
  rcases hl with hl | hneg
  · cases hl with
    | openParen => exact ⟨_, _, derives_parens_var n⟩
    | atSign => exact ⟨[.name "f"], _, (Derives.formula _ "f").tighter⟩
    | name x => exact ⟨[], _, (Derives.var _ x).tighter⟩
  · exact ⟨_, _, .not hneg hvar⟩

/-- A primary that is refused was on its way to one, as the chains in it were. -/
theorem advances_primary (ih : ∀ m, m < n → (chain limit m).Advances (Derives 1 (m + 1))) :
    (primary limit (inner limit n)).Advances (Derives 5 (n + 1)) := by
  have hsound : ∀ m, (chain limit m).Sound (OperandOf 1 (m + 1)) := fun m =>
    (reads_chain limit m).sound_operandOf
  intro ls e he
  cases primaryFront ls with
  | parens ms =>
      rcases refuses_primary_parens.mp he with ⟨-, rfl⟩ | ⟨r, hr, he⟩
      · -- A parenthesis that is too deep is followed by a variable in some expression.
        exact ⟨List.suffix_rfl, [.symbol .openParen], rfl, _, _, derives_parens_var n⟩
      · obtain ⟨m, rfl, rfl⟩ := inner_eq_some.mp hr
        refine (advances_inParens (ih m (Nat.lt_succ_self m)) (hsound m) ms e he).lift_cons _ ?_
        rintro front ⟨tail, o, ho⟩
        exact ⟨tail, o.expr, ho⟩
  | reference ms =>
      have hname : (name .formulaName).Advances fun ls e =>
          Derives 5 (n + 1) (.symbol .atSign :: ls) e := advances_accept fun l hl => by
        obtain ⟨f, rfl⟩ := hl
        exact ⟨.formula f, (Derives.formula _ f).tighter⟩
      exact (hname ms e (refuses_primary_reference.mp he)).lift_cons _ fun _ h => h
  | application x ms =>
      rcases refuses_primary_application.mp he with
        ⟨-, rfl⟩ | ⟨r, hr, he | ⟨args, rest, hg, -, rfl⟩⟩
      · -- As for a parenthesis, but the application may close at once.
        exact ⟨List.suffix_cons _ _, [.name x, .symbol .openParen], rfl, [.symbol .closeParen],
          .apply x [], (Derives.apply_listed x .nil).tighter⟩
      · obtain ⟨m, rfl, rfl⟩ := inner_eq_some.mp hr
        exact (advances_arguments (ih m (Nat.lt_succ_self m)) (hsound m) x ms e he).lift
          [.name x, .symbol .openParen] fun _ h => h
      · obtain ⟨m, rfl, rfl⟩ := inner_eq_some.mp hr
        obtain ⟨_, rfl, ms, rfl, hL⟩ := (reads_arguments (reads_chain limit m)).sound hg
        refine ⟨List.suffix_rfl, .name x :: .symbol .openParen :: (ms ++ [.symbol .closeParen]),
          by simp, opens_of_form (a := .apply x (args.map Operand.expr)) ?_⟩
        exact (Derives.apply_listed x (hL.map _ fun _ _ h => h.operandOf)).tighter
  | var x hms => exact absurd he (not_refuses_primary_var hms)
  | other hno =>
      cases (refuses_primary_other hno).mp he
      exact ⟨[], rfl, fun l hl => opens_operand hl⟩

/-- Negations may always go on with the primary that is missed. -/
theorem Advances.negated (h : r.Advances (Derives 5 (n + 1)))
    (hs : 0 < limit → r.Sound (OperandOf 6 (n + 1))) :
    (Reader.negated limit r).Advances (Derives 5 (n + 1)) := by
  intro ls e he
  obtain ⟨negs, ms, rfl, hnegs, hms⟩ := exists_negations_append ls
  rcases (refuses_negated_append hnegs hms).mp he with
    ⟨-, rfl⟩ | ⟨hn, he | ⟨o, rest, ho, -, rfl⟩⟩
  · exact ⟨List.suffix_rfl, negs, rfl, [.name "x"], _,
      Derives.negate hnegs (Derives.var _ "x").tighter⟩
  · refine (h ms e he).lift negs ?_
    rintro front ⟨tail, x, hx⟩
    refine ⟨tail, x.negate negs.length, ?_⟩
    rw [List.append_assoc]
    exact hx.negate hnegs
  · obtain ⟨front, rfl, hF⟩ := hs (Nat.zero_lt_of_lt hn) ho
    exact ⟨List.suffix_rfl, negs ++ front, by simp,
      opens_of_form (Derives.negate hnegs (Derives.tighter hF))⟩

/-- The links in front of a refusal are links of a chain, with a connective behind. -/
theorem Advances.exists_links (h : r.Advances (Derives 5 n)) (hs : r.Sound (OperandOf 5 n))
    {s : Stacks} {ls : List Lexeme} {e : Refusal} (hr : links r s ls = .error e) :
    ∃ front xs l c ms, ls = front ++ l :: ms ∧ Chain (Derives 5 n) front xs ∧
      Lexeme.Signs l c ∧ e.Within (Derives 5 n) ms := by
  induction hn : ls.length using Nat.strong_induction_on generalizing ls s with
  | _ k ih =>
      obtain ⟨l, c, ms, rfl, hl, he | ⟨o, ns, ho, he⟩⟩ := links_eq_error.mp hr
      · exact ⟨[], [], l, c, ms, rfl, .nil, Lexeme.binary?_eq_some.mp hl, h ms e he⟩
      · obtain ⟨front, rfl, hF⟩ := hs ho
        obtain ⟨tail, xs, l', c', ms, rfl, hxs, hl', hms⟩ := ih _ (by simp [← hn]) he rfl
        exact ⟨l :: (front ++ tail), _, l', c', ms, by simp,
          .cons (Lexeme.binary?_eq_some.mp hl) hF hxs, hl', hms⟩

/-- A chain may always go on with the operand that is missed. -/
theorem Advances.grouped (h : r.Advances (Derives 5 (n + 1)))
    (hr : r.Reads (OperandForm limit 5 n) EndsPrimary) :
    (Reader.grouped limit r).Advances (Derives 1 (n + 1)) := by
  intro ls e hg
  rcases refuses_grouped.mp hg with he | ⟨p, ms, hp, hlinks | ⟨g, rest, hk, hc⟩⟩
  · refine (h ls e he).imp ?_
    rintro front ⟨tail, x, hx⟩
    exact ⟨tail, x, hx.loosen (by decide)⟩
  · obtain ⟨front, rfl, hF⟩ := hr.sound_operandOf hp
    obtain ⟨tail, xs, l, c, ns, rfl, hxs, hl, hns⟩ := h.exists_links hr.sound_operandOf hlinks
    rw [show front ++ (tail ++ l :: ns) = front ++ tail ++ [l] ++ ns by simp]
    refine hns.lift _ ?_
    -- With the operand completed, the chain is grouped as a whole.
    rintro ls ⟨tail', y, hy⟩
    obtain ⟨e, he⟩ := Groups.exists_groups p.expr (xs ++ [(c, y)])
    refine ⟨tail', e, ?_⟩
    have := he.derives hF (hxs.append (.cons hl hy .nil))
    simpa using this
  · obtain ⟨front, x, rfl, hx, hc'⟩ := hk.exists_collapse hr hp
    rcases hc with ⟨hc, -⟩ | ⟨_, _, -, -, rfl⟩
    · rw [hc'] at hc
      cases hc
    · exact ⟨List.suffix_rfl, front, rfl, opens_of_form (hx.nest (Nat.le_succ n))⟩

/-- **What a chain reader has read when it refuses begins an expression**, which needs at most one
more pair of parentheses. -/
theorem advances_chain (limit n : Nat) : (chain limit n).Advances (Derives 1 (n + 1)) := by
  -- On the nesting: what stands in parentheses is read with one less.
  induction n using Nat.strong_induction_on with
  | _ n ih =>
      have hprimary := fun hl : 0 < limit => reads_primary hl fun m (_ : m < n) =>
        reads_chain limit m
      rw [chain_eq]
      exact ((advances_primary ih).negated fun hl => (hprimary hl).sound_operandOf).grouped
        (reads_negated hprimary)

/-- An expression that is refused was on its way to one. -/
theorem advances_expression (limit : Nat) : (expression limit).Advances DerivesFreely := by
  intro ls e he
  refine (advances_chain limit limit ls e (refuses_map.mp he)).imp ?_
  rintro front ⟨tail, x, hx⟩
  exact ⟨tail, x, _, hx⟩

end Expressions

end Reader

end PropBench
