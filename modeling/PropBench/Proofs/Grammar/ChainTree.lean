import PropBench.Proofs.Grammar.Grouping

/-!
# Proofs — Grammar — Chain tree

The trees over a chain: the leaves are its operands and the nodes its connectives, both in the order
of the chain.

* `ChainTree.AtLevel`: the trees of the grammar of levels.  A connective stands above tighter ones,
  and above those of its own level on the side it groups to.
* `ChainTree.existsUnique`: every chain has one such tree.
* `ChainTree.AtLevel.collapse`: two stacks find it.
-/

namespace PropBench

/-- The connectives of one level group to the same side. -/
theorem RightLevel.not_left {c d : Binary} {b : Nat} (hc : RightLevel c b) : ¬ LeftLevel d b := by
  rintro ⟨⟩ <;> cases hc

/-- A tree over the operands of a chain. -/
inductive ChainTree where
  | leaf (e : Expr)
  | node (c : Binary) (l r : ChainTree)

namespace ChainTree

/-- The first operand. -/
def first : ChainTree → Expr
  | .leaf e => e
  | .node _ l _ => l.first

/-- The connectives from left to right, each with the operand behind it. -/
def links : ChainTree → List (Binary × Expr)
  | .leaf _ => []
  | .node c l r => l.links ++ (c, r.first) :: r.links

/-- The expression, with a connective for each node. -/
def expr : ChainTree → Expr
  | .leaf e => e
  | .node c l r => .binary c l.expr r.expr

/-- The tree has the operand `x` and the links `xs` behind it, from left to right. -/
def Spans (t : ChainTree) (x : Expr) (xs : List (Binary × Expr)) : Prop :=
  t.first = x ∧ t.links = xs

/-- The trees at a level.  From the loosest on, the levels `1` to `4` are those of IFF, IMPLIES, OR
and AND, and the operands are at the level `5`. -/
inductive AtLevel : Nat → ChainTree → Prop
  | leaf (e : Expr) : AtLevel 5 (.leaf e)
  | tighter {b : Nat} {t : ChainTree} (h : AtLevel (b + 1) t) : AtLevel b t
  | right {c : Binary} {b : Nat} {l r : ChainTree} (hc : RightLevel c b) (hl : AtLevel (b + 1) l)
      (hr : AtLevel b r) : AtLevel b (.node c l r)
  | left {c : Binary} {b : Nat} {l r : ChainTree} (hc : LeftLevel c b) (hl : AtLevel b l)
      (hr : AtLevel (b + 1) r) : AtLevel b (.node c l r)

variable {b : Nat} {t u : ChainTree} {x e : Expr} {xs : List (Binary × Expr)}

/-! ### Uniqueness -/

theorem eq_leaf_of_links (h : t.links = []) : t = .leaf t.first := by
  cases t with
  | leaf e => rfl
  | node c l r => exact absurd h (by simp [links])

/-- The connectives of a tree are of its level or tighter. -/
theorem AtLevel.le_binding (h : t.AtLevel b) : ∀ link ∈ t.links, b ≤ link.1.binding := by
  induction h with
  | leaf e => exact fun _ hmem => absurd hmem (List.not_mem_nil)
  | tighter _ ih => exact fun link hmem => Nat.le_of_succ_le (ih link hmem)
  | right hc _ _ ihl ihr =>
      obtain ⟨-, rfl⟩ := rightLevel_iff.mp hc
      refine List.forall_mem_append.mpr ⟨fun link hmem => Nat.le_of_succ_le (ihl link hmem), ?_⟩
      exact List.forall_mem_cons.mpr ⟨le_rfl, ihr⟩
  | left hc _ _ ihl ihr =>
      obtain ⟨-, rfl⟩ := leftLevel_iff.mp hc
      refine List.forall_mem_append.mpr ⟨ihl, ?_⟩
      exact List.forall_mem_cons.mpr ⟨le_rfl, fun link hmem => Nat.le_of_succ_le (ihr link hmem)⟩

/-- A list is split in one way at members that do not stand on the same side of each other. -/
theorem append_cons_inj_of {α : Type} {as bs cs ds : List α} {a b : α}
    (h : as ++ a :: bs = cs ++ b :: ds) (hl : a ∈ cs → b ∉ bs) (hr : b ∈ as → a ∉ ds) :
    as = cs ∧ a = b ∧ bs = ds := by
  rcases List.append_eq_append_iff.mp h with ⟨ms, rfl, hms⟩ | ⟨ms, rfl, hms⟩
  · rcases List.cons_eq_append_iff.mp hms with ⟨rfl, heq⟩ | ⟨ns, rfl, rfl⟩
    · cases heq
      exact ⟨(List.append_nil _).symm, rfl, rfl⟩
    · exact absurd (by simp) (hl (by simp))
  · rcases List.cons_eq_append_iff.mp hms with ⟨rfl, heq⟩ | ⟨ns, rfl, rfl⟩
    · cases heq
      exact ⟨List.append_nil _, rfl, rfl⟩
    · exact absurd (by simp) (hr (by simp))

/-- A connective of a level is not in a tree of tighter ones. -/
theorem AtLevel.not_mem (h : t.AtLevel (b + 1)) {c : Binary} (hc : c.binding = b) (y : Expr) :
    (c, y) ∉ t.links := fun hmem => by
  have hle : b + 1 ≤ c.binding := h.le_binding _ hmem
  omega

/-- A tree of tighter connectives is not over the chain of one with a connective of the level. -/
theorem AtLevel.links_ne (h : t.AtLevel (b + 1)) {c : Binary} (hc : c.binding = b)
    (l r : ChainTree) : (node c l r).links ≠ t.links := fun heq =>
  h.not_mem hc r.first (heq ▸ List.mem_append_right _ (List.mem_cons_self ..))

/-- **A chain has at most one tree at a level.** -/
theorem AtLevel.unique (h : t.AtLevel b) (hu : u.AtLevel b) (hfirst : u.first = t.first)
    (hlinks : u.links = t.links) : u = t := by
  induction h generalizing u with
  | leaf e => rw [eq_leaf_of_links hlinks, hfirst]; rfl
  | @tighter b t h ih =>
      cases hu with
      | leaf e => rw [eq_leaf_of_links hlinks.symm, ← hfirst]; rfl
      | tighter hu => exact ih hu hfirst hlinks
      | right hc => exact absurd hlinks (h.links_ne (rightLevel_iff.mp hc).2.symm _ _)
      | left hc => exact absurd hlinks (h.links_ne (leftLevel_iff.mp hc).2.symm _ _)
  | @right c b l r hc hl hr ihl ihr =>
      have hb := (rightLevel_iff.mp hc).2.symm
      cases hu with
      | leaf e => exact absurd hlinks.symm (by simp [links])
      | tighter hu => exact absurd hlinks.symm (hu.links_ne hb l r)
      | left hd => exact absurd hd hc.not_left
      | @right d _ l' r' hd hl' hr' =>
          -- The connective of the level that stands leftmost is at the root.
          have hb' := (rightLevel_iff.mp hd).2.symm
          obtain ⟨hls, hroot, hrs⟩ := append_cons_inj_of hlinks
            (fun hmem => absurd hmem (hl.not_mem hb' _))
            (fun hmem => absurd hmem (hl'.not_mem hb _))
          obtain ⟨rfl, hnext⟩ := Prod.mk.inj hroot
          rw [ihl hl' hfirst hls, ihr hr' hnext hrs]
  | @left c b l r hc hl hr ihl ihr =>
      have hb := (leftLevel_iff.mp hc).2.symm
      cases hu with
      | leaf e => exact absurd hlinks.symm (by simp [links])
      | tighter hu => exact absurd hlinks.symm (hu.links_ne hb l r)
      | right hd => exact absurd hc hd.not_left
      | @left d _ l' r' hd hl' hr' =>
          -- The connective of the level that stands rightmost is at the root.
          have hb' := (leftLevel_iff.mp hd).2.symm
          obtain ⟨hls, hroot, hrs⟩ := append_cons_inj_of hlinks
            (fun _ => hr'.not_mem hb _) (fun _ => hr.not_mem hb' _)
          obtain ⟨rfl, hnext⟩ := Prod.mk.inj hroot
          rw [ihl hl' hfirst hls, ihr hr' hnext hrs]

/-! ### Groupings -/

/-- A tree at a level groups its links as the grammar does at that level. -/
theorem AtLevel.groups (h : t.AtLevel b) : Groups b t.first t.links t.expr := by
  induction h with
  | leaf e => exact .single e
  | tighter _ ih => exact ih.tighter
  | right hc _ _ ihl ihr =>
      obtain ⟨hright, rfl⟩ := rightLevel_iff.mp hc
      exact .right hright ihl ihr
  | left hc _ _ ihl ihr =>
      obtain ⟨hleft, rfl⟩ := leftLevel_iff.mp hc
      exact .left hleft ihl ihr

/-- What a chain is grouped to has a tree. -/
theorem exists_of_groups (h : Groups b x xs e) :
    ∃ t : ChainTree, t.Spans x xs ∧ t.AtLevel b ∧ t.expr = e := by
  induction h with
  | single x => exact ⟨.leaf x, ⟨rfl, rfl⟩, .leaf x, rfl⟩
  | tighter _ ih =>
      obtain ⟨t, ht, hlevel, he⟩ := ih
      exact ⟨t, ht, hlevel.tighter, he⟩
  | right hc _ _ ihe ihf =>
      obtain ⟨l, ⟨rfl, rfl⟩, hl, rfl⟩ := ihe
      obtain ⟨r, ⟨rfl, rfl⟩, hr, rfl⟩ := ihf
      exact ⟨.node _ l r, ⟨rfl, rfl⟩, .right (rightLevel_iff.mpr ⟨hc, rfl⟩) hl hr, rfl⟩
  | left hc _ _ ihe ihf =>
      obtain ⟨l, ⟨rfl, rfl⟩, hl, rfl⟩ := ihe
      obtain ⟨r, ⟨rfl, rfl⟩, hr, rfl⟩ := ihf
      exact ⟨.node _ l r, ⟨rfl, rfl⟩, .left (leftLevel_iff.mpr ⟨hc, rfl⟩) hl hr, rfl⟩

/-- **Every chain has one tree.** -/
theorem existsUnique (x : Expr) (xs : List (Binary × Expr)) :
    ∃! t : ChainTree, t.Spans x xs ∧ t.AtLevel 1 := by
  obtain ⟨e, he⟩ := Groups.exists_groups x xs
  obtain ⟨t, ht, hlevel, -⟩ := exists_of_groups he
  refine ⟨t, ⟨ht, hlevel⟩, ?_⟩
  rintro u ⟨hu, hulevel⟩
  exact hlevel.unique hulevel (hu.1.trans ht.1.symm) (hu.2.trans ht.2.symm)

/-- The stacks collapse to the tree of the chain. -/
theorem AtLevel.collapse (h : t.AtLevel 1) :
    (Stacks.pushAll ⟨[.of t.first], []⟩ t.links).collapse = [.of t.expr] :=
  collapse_pushAll_iff.mpr h.groups

/-- In `a -> b -> c & d | e` the conjunction is the tightest, and the second implication is on the
right of the first. -/
example :
    (Stacks.pushAll ⟨[.of (.var "a")], []⟩ [(.implies, .var "b"), (.implies, .var "c"),
      (.and, .var "d"), (.or, .var "e")]).collapse =
    [.of (.binary .implies (.var "a") (.binary .implies (.var "b")
      (.binary .or (.binary .and (.var "c") (.var "d")) (.var "e"))))] := by
  rfl

end ChainTree

end PropBench
