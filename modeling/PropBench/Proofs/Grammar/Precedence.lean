import PropBench.Proofs.Grammar.ChainTree
import PropBench.Proofs.Grammar.Refusal

/-!
# Proofs — Grammar — Precedence

The loop over a chain, step by step.

* `Stacks.Step`: before a connective is put on its stack, those that take their operands first are
  applied one by one; when no link is left, all are.
* `Stacks.Holds`: the trees on the stacks, with the waiting connectives between, are the front of
  the chain.  A step keeps that (`Step.holds`), so a run does (`Steps.holds`).
* `Stacks.Builds`: the loop builds a tree, and what holds of all that is reached on the way.
* `Reader.chain_grouped_by_levels`: what a chain is read to is its tree of the grammar of levels.
-/

namespace PropBench

namespace Stacks

variable {s : Stacks} {os : List Operand} {cs : List Binary} {x : Expr}
  {xs ys : List (Binary × Expr)}

/-! ### Steps -/

/-- The loop takes one step, with the links that are left. -/
inductive Step : Stacks × List (Binary × Expr) → Stacks × List (Binary × Expr) → Prop
  | settle {d c : Binary} {y : Expr} {os : List Operand} {cs : List Binary}
      {ys : List (Binary × Expr)} (h : takesFirst d c = true) :
      Step (⟨os, d :: cs⟩, (c, y) :: ys) (⟨reduce d os, cs⟩, (c, y) :: ys)
  | shift {c : Binary} {y : Expr} {os : List Operand} {cs : List Binary}
      {ys : List (Binary × Expr)} (h : ∀ d ∈ cs.head?, takesFirst d c = false) :
      Step (⟨os, cs⟩, (c, y) :: ys) (⟨.of y :: os, c :: cs⟩, ys)
  | drain {d : Binary} {os : List Operand} {cs : List Binary} :
      Step (⟨os, d :: cs⟩, []) (⟨reduce d os, cs⟩, [])

/-- The loop takes steps. -/
abbrev Steps : Stacks × List (Binary × Expr) → Stacks × List (Binary × Expr) → Prop :=
  Relation.ReflTransGen Step

/-- A step is the only one. -/
theorem step_rightUnique : Relator.RightUnique Step := by
  rintro _ _ _ (h | h | _) (h' | h' | _)
  · rfl
  · exact absurd h (by simp [h' _ rfl])
  · exact absurd h' (by simp [h _ rfl])
  · rfl
  · rfl

/-- With one operand left and no link, the loop is over. -/
theorem not_step_last {o : Operand} {p : Stacks × List (Binary × Expr)} :
    ¬ Step (⟨[o], []⟩, []) p := by
  rintro ⟨⟩

/-- The waiting connectives that take their operands before the next one does are applied. -/
theorem steps_settle (c : Binary) (y : Expr) (os : List Operand) (cs : List Binary)
    (ys : List (Binary × Expr)) :
    Steps (⟨os, cs⟩, (c, y) :: ys) (settle c os cs, (c, y) :: ys) := by
  induction cs generalizing os with
  | nil => exact .refl
  | cons d cs ih =>
      cases hd : takesFirst d c with
      | true =>
          rw [settle, if_pos hd]
          exact .head (.settle hd) (ih _)
      | false =>
          rw [settle, if_neg (by simp [hd])]

/-- When the settling is over, no waiting connective goes before the next one. -/
theorem takesFirst_head?_settle (c : Binary) (os : List Operand) (cs : List Binary) :
    ∀ d ∈ (settle c os cs).connectives.head?, takesFirst d c = false := by
  induction cs generalizing os with
  | nil => simp [settle]
  | cons e cs ih =>
      cases he : takesFirst e c with
      | true =>
          rw [settle, if_pos he]
          exact ih _
      | false => simp [settle, he]

/-- A push is the settling, step by step, and a shift. -/
theorem steps_push (s : Stacks) (c : Binary) (y : Expr) (ys : List (Binary × Expr)) :
    Steps (s, (c, y) :: ys) (s.push c (.of y), ys) :=
  (steps_settle c y s.operands s.connectives ys).tail (.shift (takesFirst_head?_settle c _ _))

/-- The pushes of a chain are steps of the loop. -/
theorem steps_pushAll (s : Stacks) (xs : List (Binary × Expr)) :
    Steps (s, xs) (s.pushAll xs, []) := by
  induction xs generalizing s with
  | nil => exact .refl
  | cons link xs ih => exact (steps_push s link.1 link.2 xs).trans (ih _)

/-- The collapse is what the loop does when no link is left. -/
theorem steps_collapse (s : Stacks) : Steps (s, []) (⟨s.collapse, []⟩, []) := by
  obtain ⟨os, cs⟩ := s
  induction cs generalizing os with
  | nil => exact .refl
  | cons d cs ih => exact .head .drain (ih _)

/-! ### What the stacks hold -/

/-- The trees on the stack of operands, with the waiting connectives between, are over the operand
`x` and the links behind it. -/
inductive Holds : Stacks → Expr → List (Binary × Expr) → Prop
  | bottom (t : ChainTree) : Holds ⟨[.of t.expr], []⟩ t.first t.links
  | above {os : List Operand} {cs : List Binary} {x : Expr} {xs : List (Binary × Expr)}
      (h : Holds ⟨os, cs⟩ x xs) (c : Binary) (t : ChainTree) :
      Holds ⟨.of t.expr :: os, c :: cs⟩ x (xs ++ (c, t.first) :: t.links)

theorem Holds.length_operands (h : s.Holds x xs) :
    s.operands.length = s.connectives.length + 1 := by
  induction h with
  | bottom t => rfl
  | above _ c t ih => exact congrArg (· + 1) ih

theorem Holds.depth_eq (h : s.Holds x xs) : ∀ o ∈ s.operands, o.depth = o.expr.depth := by
  induction h with
  | bottom t => simp [Operand.of]
  | above _ c t ih => exact List.forall_mem_cons.mpr ⟨rfl, ih⟩

/-- There are two operands for a waiting connective. -/
theorem Holds.exists_operands {d : Binary} (h : s.Holds x xs) (hd : s.connectives = d :: cs) :
    ∃ r l os, s.operands = r :: l :: os ∧ Stacks.reduce d s.operands = .combine d l r :: os := by
  have hlength := h.length_operands
  rw [hd] at hlength
  obtain ⟨r, _, hr⟩ := List.exists_cons_of_length_eq_add_one hlength
  rw [hr] at hlength
  obtain ⟨l, os, rfl⟩ := List.exists_cons_of_length_eq_add_one (Nat.succ.inj hlength)
  exact ⟨r, l, os, hr, by rw [hr]; rfl⟩

/-- A waiting connective stands between two trees, and is put above them. -/
theorem Holds.reduce {d : Binary} (h : Holds ⟨os, d :: cs⟩ x xs) :
    Holds ⟨reduce d os, cs⟩ x xs := by
  cases h with
  | @above os _ _ xs h _ r =>
      cases h with
      | bottom l => exact .bottom (.node d l r)
      | above h c l =>
          have hnode := h.above c (.node d l r)
          rwa [ChainTree.links, ← List.cons_append, ← List.append_assoc] at hnode

/-- **A step keeps the chain**: what the stacks hold and the links that are left. -/
theorem Step.holds {p q : Stacks × List (Binary × Expr)} (h : Step p q)
    (hp : p.1.Holds x xs) : ∃ ys, q.1.Holds x ys ∧ xs ++ p.2 = ys ++ q.2 := by
  cases h with
  | settle => exact ⟨xs, hp.reduce, rfl⟩
  | @shift c y => exact ⟨xs ++ [(c, y)], hp.above c (.leaf y), by simp⟩
  | drain => exact ⟨xs, hp.reduce, rfl⟩

/-- Steps keep what the stacks hold, and move links from what is left to what is held. -/
theorem Steps.holds {p q : Stacks × List (Binary × Expr)} (h : Steps p q)
    (hp : p.1.Holds x xs) : ∃ ys, q.1.Holds x ys ∧ xs ++ p.2 = ys ++ q.2 := by
  induction h with
  | refl => exact ⟨xs, hp, rfl⟩
  | tail _ hstep ih =>
      obtain ⟨ys, hys, heq⟩ := ih
      obtain ⟨zs, hzs, heq'⟩ := hstep.holds hys
      exact ⟨zs, hzs, heq.trans heq'⟩

/-! ### The whole loop -/

/-- The loop begins with the first operand, and all links are left. -/
def start (t : ChainTree) : Stacks × List (Binary × Expr) := (⟨[.of t.first], []⟩, t.links)

/-- The loop ends with the expression of the tree for its one operand, and no link is left. -/
def finish (t : ChainTree) : Stacks × List (Binary × Expr) := (⟨[.of t.expr], []⟩, [])

/-- The loop over the links of a tree builds the tree. -/
structure Builds (t : ChainTree) : Prop where
  /-- When all links are pushed and what waits is applied, the expression of the tree is left. -/
  collapse : (pushAll ⟨[.of t.first], []⟩ t.links).collapse = [.of t.expr]
  /-- Step by step, this is where the loop ends, -/
  ends : Steps (start t) (finish t)
  /-- and all that is reached on the way leads there. -/
  leads : ∀ {p}, Steps (start t) p → Steps p (finish t)
  /-- There is always one operand more than there are connectives, -/
  balanced : ∀ {p}, Steps (start t) p → p.1.operands.length = p.1.connectives.length + 1
  /-- so two for a connective that is applied, -/
  reduces : ∀ {p d cs}, Steps (start t) p → p.1.connectives = d :: cs →
    ∃ r l os, p.1.operands = r :: l :: os ∧ Stacks.reduce d p.1.operands = .combine d l r :: os
  /-- each with its own depth, -/
  depth_eq : ∀ {p}, Steps (start t) p → ∀ o ∈ p.1.operands, o.depth = o.expr.depth
  /-- and the stacks and the links that are left are the chain, in its order. -/
  holds : ∀ {p}, Steps (start t) p → ∃ xs, p.1.Holds t.first xs ∧ t.links = xs ++ p.2

/-- The loop comes from the start to its finish. -/
theorem steps_start_finish {t : ChainTree} (h : t.AtLevel 1) : Steps (start t) (finish t) := by
  have hpushed : Steps (start t) (pushAll ⟨[.of t.first], []⟩ t.links, []) := steps_pushAll _ _
  have hcollapsed := steps_collapse (pushAll ⟨[.of t.first], []⟩ t.links)
  rw [h.collapse] at hcollapsed
  exact hpushed.trans hcollapsed

/-- Nothing is reached from the end. -/
theorem eq_finish_of_steps {t : ChainTree} {p : Stacks × List (Binary × Expr)}
    (h : Steps (finish t) p) : p = finish t := by
  rcases Relation.ReflTransGen.cases_head h with heq | ⟨_, hstep, -⟩
  · exact heq.symm
  · exact absurd hstep not_step_last

/-- On the way, what is held and what is left make the chain. -/
theorem holds_of_steps {t : ChainTree} {p : Stacks × List (Binary × Expr)}
    (h : Steps (start t) p) : ∃ xs, p.1.Holds t.first xs ∧ t.links = xs ++ p.2 :=
  Steps.holds h (.bottom (.leaf t.first))

/-- **The loop builds the tree of the chain.** -/
theorem builds {t : ChainTree} (h : t.AtLevel 1) : Builds t where
  collapse := h.collapse
  ends := steps_start_finish h
  leads hp := by
    rcases Relation.ReflTransGen.total_of_right_unique step_rightUnique hp (steps_start_finish h)
      with h | h
    · exact h
    · rw [eq_finish_of_steps h]
  balanced hp := by
    obtain ⟨xs, hxs, -⟩ := holds_of_steps hp
    exact hxs.length_operands
  reduces hp hd := by
    obtain ⟨xs, hxs, -⟩ := holds_of_steps hp
    exact hxs.exists_operands hd
  depth_eq hp := by
    obtain ⟨xs, hxs, -⟩ := holds_of_steps hp
    exact hxs.depth_eq
  holds := holds_of_steps

end Stacks

namespace Reader

open Stacks

variable {ls rest : List Lexeme}

/-! ### Operands -/

/-- The reader of the operands of a chain: negations and a primary. -/
def unary (limit n : Nat) : Reader Operand := negated limit (primary limit (inner limit n))

theorem chain_eq_grouped (limit n : Nat) : chain limit n = grouped limit (unary limit n) :=
  chain_eq limit n

theorem reads_unary (limit n : Nat) :
    (unary limit n).Reads (OperandForm limit 5 n) EndsPrimary :=
  reads_negated fun hl => reads_primary hl fun m _ => reads_chain limit m

theorem exists_eq_of_unary {limit n : Nat} {o : Operand} (h : (unary limit n).Gives ls o rest) :
    ∃ e, o = .of e := Sound.exists_eq_of (reads_unary limit n).sound h

theorem exists_eq_of_chain {limit n : Nat} {o : Operand} (h : (chain limit n).Gives ls o rest) :
    ∃ e, o = .of e := Sound.exists_eq_of (reads_chain limit n).sound h

/-! ### Chains -/

variable {limit n : Nat} {ms : List Lexeme} {t : ChainTree}

/-- A chain is read to its tree, if that is within the limit. -/
theorem gives_chain_tree (ht : t.AtLevel 1) (hfirst : (unary limit n).Gives ls (.of t.first) ms)
    (hlinks : TakesLinks (unary limit n) ms t.links rest) (hd : t.expr.depth ≤ limit) :
    (chain limit n).Gives ls (.of t.expr) rest := by
  rw [chain_eq_grouped]
  exact gives_grouped.mpr ⟨_, ms, _, [], hfirst, hlinks.linksGive _, ht.collapse, hd⟩

/-- A chain whose tree is deeper than the limit is refused as a whole. -/
theorem refuses_chain_tree (ht : t.AtLevel 1) (hfirst : (unary limit n).Gives ls (.of t.first) ms)
    (hlinks : TakesLinks (unary limit n) ms t.links rest) (hd : limit < t.expr.depth) :
    (chain limit n).Refuses ls (.tooDeep ls rest true) := by
  rw [chain_eq_grouped]
  exact refuses_grouped.mpr (.inr ⟨_, ms, hfirst, .inr ⟨_, rest, hlinks.linksGive _,
    .inr ⟨_, [], ht.collapse, hd, rfl⟩⟩⟩)

/-- The links that are read behind an operand make a tree with it. -/
theorem exists_tree_of_links {p : Operand} (hp : (unary limit n).Gives ls p ms) {k : Links ms}
    (hk : links (unary limit n) ⟨[p], []⟩ ms = .ok k) :
    ∃ t : ChainTree, t.AtLevel 1 ∧ p = .of t.first ∧
      TakesLinks (unary limit n) ms t.links k.rest ∧ k.grouping.collapse = [.of t.expr] := by
  obtain ⟨x, rfl⟩ := exists_eq_of_unary hp
  have hgive : LinksGive (unary limit n) ⟨[.of x], []⟩ ms k.grouping k.rest := ⟨k, hk, rfl, rfl⟩
  obtain ⟨xs, hxs, hg⟩ := hgive.exists_takesLinks exists_eq_of_unary
  obtain ⟨t, ⟨⟨rfl, rfl⟩, ht⟩, -⟩ := ChainTree.existsUnique x xs
  exact ⟨t, ht, rfl, hxs, hg ▸ ht.collapse⟩

/-- **Chains are grouped as the grammar says.**  A chain of any length has one tree of the grammar
of levels, the loop over the stacks builds that tree, and this is what a chain of operands is read
to.  There is always an operand left, and its depth is that of its expression. -/
theorem chain_grouped_by_levels (limit n : Nat) :
    (∀ x xs, ∃! t : ChainTree, t.Spans x xs ∧ t.AtLevel 1) ∧
      (∀ t : ChainTree, t.AtLevel 1 → Builds t) ∧
      (∀ (t : ChainTree) (ls ms rest : List Lexeme), t.AtLevel 1 →
        (unary limit n).Gives ls (.of t.first) ms → TakesLinks (unary limit n) ms t.links rest →
        if t.expr.depth ≤ limit then (chain limit n).Gives ls (.of t.expr) rest
        else (chain limit n).Refuses ls (.tooDeep ls rest true)) ∧
      (∀ (ls ms : List Lexeme) (p : Operand) (k : Links ms), (unary limit n).Gives ls p ms →
        links (unary limit n) ⟨[p], []⟩ ms = .ok k →
        ∃ t : ChainTree, t.AtLevel 1 ∧ p = .of t.first ∧
          TakesLinks (unary limit n) ms t.links k.rest ∧ k.grouping.collapse = [.of t.expr]) ∧
      ∀ (ls : List Lexeme) (o : Operand) (rest : List Lexeme),
        (unary limit n).Gives ls o rest ∨ (chain limit n).Gives ls o rest →
        o.depth = o.expr.depth := by
  refine ⟨ChainTree.existsUnique, fun t => builds, fun t ls ms rest ht hfirst hlinks => ?_,
    fun ls ms p k hp hk => exists_tree_of_links hp hk, fun ls o rest ho => ?_⟩
  · split
    · next hd => exact gives_chain_tree ht hfirst hlinks hd
    · next hd => exact refuses_chain_tree ht hfirst hlinks (Nat.lt_of_not_le hd)
  · obtain ⟨e, rfl⟩ : ∃ e, o = .of e := ho.elim exists_eq_of_unary exists_eq_of_chain
    rfl

end Reader

end PropBench
