import PropBench.Grammar.Expression
import PropBench.Proofs.Grammar.Derivation

/-!
# Proofs — Grammar — Grouping

How a chain of operands with connectives between is grouped (`Groups`), and that two stacks group it
so.

* `Groups.exists_groups`: every chain can be grouped.
* `Groups.leaves`: pushing the links of a chain leaves, above what was waiting, connectives that
  reduce the operands to the grouping of the chain.
* `collapse_pushAll_iff`: the stacks collapse to the one grouping of the chain.
-/

namespace PropBench

theorem Expr.depth_left_le (c : Binary) (l r : Expr) : l.depth ≤ (binary c l r).depth := by
  show l.depth ≤ 1 + max l.depth r.depth
  omega

theorem Expr.depth_right_le (c : Binary) (l r : Expr) : r.depth ≤ (binary c l r).depth := by
  show r.depth ≤ 1 + max l.depth r.depth
  omega

/-- The grouping of an operand and the connectives and operands behind it, at a level. -/
inductive Groups : Nat → Expr → List (Binary × Expr) → Expr → Prop
  | single (x : Expr) : Groups 5 x [] x
  | tighter {b : Nat} {x e : Expr} {xs : List (Binary × Expr)} (h : Groups (b + 1) x xs e) :
      Groups b x xs e
  | right {c : Binary} {x y e f : Expr} {xs ys : List (Binary × Expr)} (hc : c.groupsRight = true)
      (he : Groups (c.binding + 1) x xs e) (hf : Groups c.binding y ys f) :
      Groups c.binding x (xs ++ (c, y) :: ys) (.binary c e f)
  | left {c : Binary} {x y e f : Expr} {xs ys : List (Binary × Expr)} (hc : c.groupsRight = false)
      (he : Groups c.binding x xs e) (hf : Groups (c.binding + 1) y ys f) :
      Groups c.binding x (xs ++ (c, y) :: ys) (.binary c e f)

namespace Groups

variable {b : Nat} {x e : Expr} {xs : List (Binary × Expr)}

/-- A chain grouped at a level is grouped so at all looser ones. -/
theorem loosen (h : Groups b x xs e) {b' : Nat} (hb : b' ≤ b) : Groups b' x xs e := by
  induction hb with
  | refl => exact h
  | step _ ih => exact ih h.tighter

/-- The operands are no deeper than the grouping. -/
theorem depth_le (h : Groups b x xs e) :
    x.depth ≤ e.depth ∧ ∀ link ∈ xs, link.2.depth ≤ e.depth := by
  induction h with
  | single x => exact ⟨le_rfl, by simp⟩
  | tighter _ ih => exact ih
  | right _ _ _ ihe ihf | left _ _ _ ihe ihf =>
      refine ⟨ihe.1.trans (Expr.depth_left_le ..), fun link hlink => ?_⟩
      rcases List.mem_append.mp hlink with h | h
      · exact (ihe.2 link h).trans (Expr.depth_left_le ..)
      · rcases List.mem_cons.mp h with rfl | h
        · exact ihf.1.trans (Expr.depth_right_le ..)
        · exact (ihf.2 link h).trans (Expr.depth_right_le ..)

/-! ### Every chain can be grouped -/

/-- A chain grouped at the level of `c` or a looser one can be made longer by `c`. -/
theorem snoc (h : Groups b x xs e) {c : Binary} (hb : b ≤ c.binding) (y : Expr) :
    ∃ f, Groups b x (xs ++ [(c, y)]) f := by
  have one : ∀ b, b ≤ 5 → Groups b y [] y := fun b hb => (Groups.single y).loosen hb
  have hc := c.binding_le
  -- The link joins the last operand at the level of `c`, and what is tighter stays as it is.
  induction h with
  | single x => omega
  | @tighter b x e xs h ih =>
      rcases Nat.lt_or_eq_of_le hb with hlt | rfl
      · obtain ⟨f, hf⟩ := ih hlt
        exact ⟨f, hf.tighter⟩
      · cases hr : c.groupsRight with
        | true => exact ⟨_, .right hr h (one _ (by omega))⟩
        | false => exact ⟨_, .left hr h.tighter (one _ (by omega))⟩
  | @right d x z e f xs zs hd he hf _ ihf =>
      obtain ⟨f', hf'⟩ := ihf hb
      rw [List.append_assoc]
      exact ⟨_, .right hd he hf'⟩
  | @left d x z e f xs zs hd he hf _ ihf =>
      rcases Nat.lt_or_eq_of_le hb with hlt | heq
      · obtain ⟨f', hf'⟩ := ihf hlt
        rw [List.append_assoc]
        exact ⟨_, .left hd he hf'⟩
      · obtain rfl := Binary.binding_injective heq
        exact ⟨_, .left hd (.left hd he hf) (one _ (by omega))⟩

/-- Every chain can be grouped. -/
theorem exists_groups (x : Expr) (xs : List (Binary × Expr)) : ∃ e, Groups 1 x xs e := by
  induction xs using List.reverseRecOn with
  | nil => exact ⟨x, (Groups.single x).loosen (by decide)⟩
  | append_singleton xs link ih =>
      obtain ⟨e, he⟩ := ih
      exact he.snoc link.1.one_le_binding link.2

end Groups

/-! ### Stacks -/

/-- An expression with its depth. -/
def Operand.of (e : Expr) : Operand := ⟨e, e.depth⟩

namespace Stacks

/-- The waiting connectives that are above those of `cs`, which `c` does not reach, are applied. -/
theorem settle_append {c : Binary} {ws cs : List Binary} (hw : ∀ w ∈ ws, takesFirst w c = true)
    (hcs : ∀ d ∈ cs.head?, takesFirst d c = false) (os : List Operand) :
    settle c os (ws ++ cs) = ⟨ws.foldl (fun os d => reduce d os) os, cs⟩ := by
  induction ws generalizing os with
  | nil =>
      cases cs with
      | nil => rfl
      | cons d cs => simp [settle, hcs d rfl]
  | cons w ws ih =>
      rw [List.cons_append, settle, if_pos (hw w (by simp)), ih fun v hv => hw v (by simp [hv])]
      rfl

/-- The stacks after the links of a chain. -/
def pushAll (s : Stacks) (xs : List (Binary × Expr)) : Stacks :=
  xs.foldl (fun s link => s.push link.1 (.of link.2)) s

theorem pushAll_cons (s : Stacks) (c : Binary) (y : Expr) (ys : List (Binary × Expr)) :
    s.pushAll ((c, y) :: ys) = (s.push c (.of y)).pushAll ys := rfl

theorem pushAll_append (s : Stacks) (xs ys : List (Binary × Expr)) :
    s.pushAll (xs ++ ys) = (s.pushAll xs).pushAll ys := List.foldl_append

/-- No connective at the level `b` or a tighter one reaches the waiting ones. -/
def Unreached (b : Nat) (cs : List Binary) : Prop :=
  ∀ d ∈ cs.head?, ∀ c : Binary, b ≤ c.binding → takesFirst d c = false

theorem Unreached.mono {b b' : Nat} {cs : List Binary} (h : Unreached b cs) (hb : b ≤ b') :
    Unreached b' cs := fun d hd c hc => h d hd c (hb.trans hc)

/-- A waiting connective that binds tighter takes its operands first. -/
theorem takesFirst_of_lt {d c : Binary} (h : c.binding < d.binding) : takesFirst d c = true := by
  simp [takesFirst, h]

/-- A waiting connective goes before one that groups to the left and binds no tighter. -/
theorem takesFirst_of_le {d c : Binary} (hc : c.groupsRight = false) (h : c.binding ≤ d.binding) :
    takesFirst d c = true := by
  rcases Nat.lt_or_eq_of_le h with hlt | heq
  · exact takesFirst_of_lt hlt
  · simp [takesFirst, heq, hc]

/-- A tighter connective does not reach a waiting one. -/
theorem unreached_of_lt {c : Binary} (cs : List Binary) : Unreached (c.binding + 1) (c :: cs) := by
  rintro d hd a ha
  cases hd
  have : ¬ a.binding < c.binding ∧ a.binding ≠ c.binding := by omega
  simp [takesFirst, this.1, this.2]

/-- A connective that groups to the right does not reach a waiting one of its kind. -/
theorem unreached_of_groupsRight {c : Binary} (hc : c.groupsRight = true) (cs : List Binary) :
    Unreached c.binding (c :: cs) := by
  rintro d hd a ha
  cases hd
  rcases Nat.lt_or_eq_of_le ha with hlt | heq
  · exact unreached_of_lt cs c rfl a hlt
  · obtain rfl := Binary.binding_injective heq
    simp [takesFirst, hc]

/-- Above the connectives `cs`, the stacks hold connectives of the level `b` or tighter ones, which
reduce the operands to `os`. -/
def Leaves (s : Stacks) (b : Nat) (os : List Operand) (cs : List Binary) : Prop :=
  ∃ ws, s.connectives = ws ++ cs ∧ ws.foldl (fun os d => reduce d os) s.operands = os ∧
    ∀ w ∈ ws, b ≤ w.binding

theorem Leaves.mono {s : Stacks} {b b' : Nat} {os : List Operand} {cs : List Binary}
    (h : s.Leaves b os cs) (hb : b' ≤ b) : s.Leaves b' os cs := by
  obtain ⟨ws, hc, hr, hw⟩ := h
  exact ⟨ws, hc, hr, fun w h => hb.trans (hw w h)⟩

/-- A connective that the connectives of the level `b` precede is pushed on what they leave. -/
theorem Leaves.push {s : Stacks} {b : Nat} {os : List Operand} {cs : List Binary}
    (h : s.Leaves b os cs) {c : Binary} (hb : ∀ w : Binary, b ≤ w.binding → takesFirst w c = true)
    (hcs : Unreached c.binding cs) (o : Operand) : s.push c o = ⟨o :: os, c :: cs⟩ := by
  obtain ⟨ws, hc, hr, hw⟩ := h
  rw [Stacks.push, hc, settle_append (fun w h => hb w (hw w h)) (fun d hd => hcs d hd c le_rfl), hr]

/-- A connective on its two operands is applied when the stacks are reduced. -/
theorem Leaves.reduce {s : Stacks} {b : Nat} {c : Binary} {e f : Expr} {os : List Operand}
    {cs : List Binary} (h : s.Leaves b (.of f :: .of e :: os) (c :: cs)) (hb : c.binding ≤ b) :
    s.Leaves c.binding (.of (.binary c e f) :: os) cs := by
  obtain ⟨ws, hc, hr, hw⟩ := h
  refine ⟨ws ++ [c], by rw [hc, List.append_assoc]; rfl, ?_, fun w hmem => ?_⟩
  · rw [List.foldl_append, hr]; rfl
  · rcases List.mem_append.mp hmem with h | h
    · exact hb.trans (hw w h)
    · rw [List.mem_singleton.mp h]

end Stacks

open Stacks

/-- **Pushing the links of a chain** leaves its grouping above what was waiting, if the chain does
not reach that. -/
theorem Groups.leaves {b : Nat} {x e : Expr} {xs : List (Binary × Expr)} (h : Groups b x xs e) :
    ∀ os cs, Unreached b cs → (pushAll ⟨.of x :: os, cs⟩ xs).Leaves b (.of e :: os) cs := by
  induction h with
  | single x => exact fun os cs _ => ⟨[], rfl, rfl, by simp⟩
  | tighter _ ih =>
      intro os cs hcs
      exact (ih os cs (hcs.mono (Nat.le_succ _))).mono (Nat.le_succ _)
  | @right c x y e f xs ys hc _ _ ihe ihf =>
      intro os cs hcs
      have he := ihe os cs (hcs.mono (Nat.le_succ _))
      have hf := ihf (.of e :: os) (c :: cs) (unreached_of_groupsRight hc cs)
      rw [pushAll_append, pushAll_cons, he.push (fun w hw => takesFirst_of_lt hw) hcs]
      exact hf.reduce le_rfl
  | @left c x y e f xs ys hc _ _ ihe ihf =>
      intro os cs hcs
      have he := ihe os cs hcs
      have hf := ihf (.of e :: os) (c :: cs) (unreached_of_lt cs)
      rw [pushAll_append, pushAll_cons, he.push (fun w hw => takesFirst_of_le hc hw) hcs]
      exact hf.reduce (Nat.le_succ _)

/-- **The stacks collapse to the grouping of the chain.** -/
theorem collapse_pushAll_iff {x e : Expr} {xs : List (Binary × Expr)} :
    (pushAll ⟨[.of x], []⟩ xs).collapse = [.of e] ↔ Groups 1 x xs e := by
  have hcollapse : ∀ {e}, Groups 1 x xs e → (pushAll ⟨[.of x], []⟩ xs).collapse = [.of e] := by
    intro e h
    obtain ⟨ws, hc, hr, -⟩ := h.leaves [] [] (by rintro d ⟨⟩)
    rw [collapse, hc, List.append_nil, hr]
  -- Conversely the chain has some grouping, and the stacks collapse to that one.
  refine ⟨fun h => ?_, hcollapse⟩
  obtain ⟨f, hf⟩ := Groups.exists_groups x xs
  have hef : Operand.of e = Operand.of f := List.head_eq_of_cons_eq (h.symm.trans (hcollapse hf))
  rw [show e = f from congrArg Operand.expr hef]
  exact hf

/-! ### The lexemes of a chain -/

/-- The lexemes of the links of a chain, `F` saying what the operands are. -/
inductive Chain (F : List Lexeme → Expr → Prop) : List Lexeme → List (Binary × Expr) → Prop
  | nil : Chain F [] []
  | cons {l : Lexeme} {c : Binary} {ls ms : List Lexeme} {y : Expr} {ys : List (Binary × Expr)}
      (hl : l.Signs c) (hy : F ls y) (h : Chain F ms ys) :
      Chain F (l :: (ls ++ ms)) ((c, y) :: ys)

/-- Two chains one behind the other are a chain. -/
theorem Chain.append {F : List Lexeme → Expr → Prop} {ls ms : List Lexeme}
    {xs ys : List (Binary × Expr)} (hx : Chain F ls xs) (hy : Chain F ms ys) :
    Chain F (ls ++ ms) (xs ++ ys) := by
  induction hx with
  | nil => exact hy
  | @cons l c ls ms y ys hl hF _ ih =>
      rw [List.cons_append, List.append_assoc]
      exact .cons hl hF ih

/-- A chain can be cut between any two links. -/
theorem Chain.of_append {F : List Lexeme → Expr → Prop} {ls : List Lexeme}
    {xs ys : List (Binary × Expr)} (h : Chain F ls (xs ++ ys)) :
    ∃ ms ns, ls = ms ++ ns ∧ Chain F ms xs ∧ Chain F ns ys := by
  induction xs generalizing ls with
  | nil => exact ⟨[], ls, rfl, .nil, h⟩
  | cons x xs ih =>
      cases h with
      | cons hl hy h =>
          obtain ⟨ms, ns, rfl, hx, hys⟩ := ih h
          exact ⟨_ :: (_ ++ ms), ns, by simp, .cons hl hy hx, hys⟩

/-- The lexemes of an operand and the links of its chain, with the grouping at a level. -/
def ChainForm (b n : Nat) (ls : List Lexeme) (e : Expr) : Prop :=
  ∃ front tail x xs, ls = front ++ tail ∧ Derives 5 n front x ∧ Chain (Derives 5 n) tail xs ∧
    Groups b x xs e

theorem Derives.chainForm_single {n : Nat} {ls : List Lexeme} {e : Expr} (h : Derives 5 n ls e) :
    ChainForm 5 n ls e := ⟨ls, [], e, [], by simp, h, .nil, .single e⟩

/-- An expression of a connective's level, or a looser one, is a chain. -/
theorem Derives.chainForm {b n : Nat} {ls : List Lexeme} {e : Expr} (h : Derives b n ls e)
    (hb : b ≤ 5) : ChainForm b n ls e := by
  induction h with
  | @tighter b n ls e h ih =>
      rcases Nat.lt_or_eq_of_le hb with hlt | rfl
      · obtain ⟨front, tail, x, xs, hls, hx, hxs, hg⟩ := ih hlt
        exact ⟨front, tail, x, xs, hls, hx, hxs, hg.tighter⟩
      · exact h.tighter.chainForm_single
  | @right c b n l ls rs e f hl hc he hf ihe ihf =>
      have hle := hc.le
      obtain ⟨hright, rfl⟩ := rightLevel_iff.mp hc
      obtain ⟨front, tail, x, xs, rfl, hx, hxs, hge⟩ := ihe (by omega)
      obtain ⟨front', tail', y, ys, rfl, hy, hys, hgf⟩ := ihf hb
      exact ⟨front, tail ++ l :: (front' ++ tail'), x, _, by simp, hx,
        hxs.append (.cons hl hy hys), .right hright hge hgf⟩
  | @left c b n l ls rs e f hl hc he hf ihe ihf =>
      have hle := hc.le
      obtain ⟨hleft, rfl⟩ := leftLevel_iff.mp hc
      obtain ⟨front, tail, x, xs, rfl, hx, hxs, hge⟩ := ihe hb
      obtain ⟨front', tail', y, ys, rfl, hy, hys, hgf⟩ := ihf (by omega)
      exact ⟨front, tail ++ l :: (front' ++ tail'), x, _, by simp, hx,
        hxs.append (.cons hl hy hys), .left hleft hge hgf⟩
  | not hl h => exact (Derives.not hl h).chainForm_single
  | _ => exact absurd hb (by decide)

/-- A chain as it is grouped is derived, if its operands are. -/
theorem Groups.derives {b n : Nat} {x e : Expr} {xs : List (Binary × Expr)} (h : Groups b x xs e)
    {front tail : List Lexeme} (hx : Derives 5 n front x) (hxs : Chain (Derives 5 n) tail xs) :
    Derives b n (front ++ tail) e := by
  induction h generalizing front tail with
  | single x => cases hxs; rwa [List.append_nil]
  | tighter _ ih => exact (ih hx hxs).tighter
  | right hc _ _ ihe ihf =>
      obtain ⟨ms, ns, rfl, hms, hns⟩ := hxs.of_append
      cases hns with
      | cons hl hy hys =>
          rw [← List.append_assoc]
          exact .right hl (rightLevel_iff.mpr ⟨hc, rfl⟩) (ihe hx hms) (ihf hy hys)
  | left hc _ _ ihe ihf =>
      obtain ⟨ms, ns, rfl, hms, hns⟩ := hxs.of_append
      cases hns with
      | cons hl hy hys =>
          rw [← List.append_assoc]
          exact .left hl (leftLevel_iff.mpr ⟨hc, rfl⟩) (ihe hx hms) (ihf hy hys)

end PropBench
