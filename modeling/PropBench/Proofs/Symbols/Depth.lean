import PropBench.Proofs.Symbols.Evaluation

/-!
# Proofs — Symbols — Depth

What the expanded depth of an expression measures.

* `Symbols.Unfolds s e u`: `u` is the tree of `e` in which each reference stands above what the
  expression of its formula unfolds to.
* `Symbols.DepthsKept.existsUnique_unfolds`: in tables whose formulas carry their depths every
  expression has one such tree, and `Symbols.Unfolds.depth_eq`: the expanded depth is its depth.
* `Symbols.Calls`: the expressions that the evaluation of one can evaluate next.
* `Symbols.DepthsKept.length_lt`: calls are nested less deep than the expanded depth.
-/

namespace PropBench

namespace Symbols

/-- The tree of an expression with its references expanded, recursively.  A reference becomes a node
with the name of the formula and one child; one to a formula that is not declared is a leaf. -/
inductive Unfolds (s : Symbols) : Expr → Expr → Prop
  | var (x : String) : Unfolds s (.var x) (.var x)
  | undeclared {f : String} (h : s.formulas.find? f = none) : Unfolds s (.formula f) (.formula f)
  | formula {f : String} {g : Formula} {u : Expr} (h : s.formulas.find? f = some g)
      (hu : Unfolds s g.expr u) : Unfolds s (.formula f) (.apply f [u])
  | not {e u : Expr} (h : Unfolds s e u) : Unfolds s (.not e) (.not u)
  | binary (c : Binary) {l r u w : Expr} (hl : Unfolds s l u) (hr : Unfolds s r w) :
      Unfolds s (.binary c l r) (.binary c u w)
  | apply (o : String) {args us : List Expr} (hlength : args.length = us.length)
      (h : ∀ a u, (a, u) ∈ args.zip us → Unfolds s a u) : Unfolds s (.apply o args) (.apply o us)

variable {s : Symbols}

theorem unfolds_apply_iff {o : String} {args : List Expr} {u : Expr} :
    s.Unfolds (.apply o args) u ↔ ∃ us, List.Forall₂ s.Unfolds args us ∧ u = .apply o us := by
  constructor
  · intro h
    cases h with
    | apply _ hlength h => exact ⟨_, List.forall₂_iff_zip.mpr ⟨hlength, h _ _⟩, rfl⟩
  · rintro ⟨us, h, rfl⟩
    exact .apply o h.length_eq fun _ _ hmem => (List.forall₂_iff_zip.mp h).2 hmem

/-- A reference is unfolded to the formula, one level deeper. -/
theorem unfolds_formula_iff {f : String} {g : Formula} (hf : s.formulas.find? f = some g)
    {u : Expr} : s.Unfolds (.formula f) u ↔ ∃ w, s.Unfolds g.expr w ∧ u = .apply f [w] := by
  constructor
  · intro h
    cases h with
    | undeclared h => rw [hf] at h; cases h
    | formula h hu => rw [hf] at h; cases h; exact ⟨_, hu, rfl⟩
  · rintro ⟨w, hw, rfl⟩
    exact .formula hf hw

/-! ### Existence and uniqueness -/

/-- Every expression can be unfolded, as references go to earlier formulas. -/
theorem DepthsKept.exists_unfolds (hs : s.DepthsKept) (e : Expr) : ∃ u, s.Unfolds e u := by
  induction e using hs.induct with
  | var x => exact ⟨_, .var x⟩
  | formula f ih =>
      cases hf : s.formulas.find? f with
      | none => exact ⟨_, .undeclared hf⟩
      | some g =>
          -- The formula was declared earlier, and is unfolded by itself.
          obtain ⟨u, hu⟩ := ih g hf
          exact ⟨_, .formula hf hu⟩
  | not e ih =>
      obtain ⟨u, hu⟩ := ih
      exact ⟨_, .not hu⟩
  | binary c l r ihl ihr =>
      obtain ⟨u, hu⟩ := ihl
      obtain ⟨w, hw⟩ := ihr
      exact ⟨_, .binary c hu hw⟩
  | apply o args ih =>
      obtain ⟨us, hus, -⟩ := exists_forall₂ (P := fun _ => True) fun a ha =>
        (ih a ha).imp fun _ hu => ⟨hu, trivial⟩
      exact ⟨_, unfolds_apply_iff.mpr ⟨us, hus, rfl⟩⟩

/-- An expression is unfolded in one way. -/
theorem Unfolds.unique {e u : Expr} (h : s.Unfolds e u) : ∀ w, s.Unfolds e w → w = u := by
  induction h with
  | var x => rintro _ ⟨⟩; rfl
  | undeclared h =>
      intro w hw
      cases hw with
      | undeclared => rfl
      | formula h' => rw [h] at h'; cases h'
  | formula h _ ih =>
      intro w hw
      obtain ⟨w, hchild, rfl⟩ := (unfolds_formula_iff h).mp hw
      rw [ih w hchild]
  | not _ ih =>
      rintro _ ⟨⟩
      next hw => rw [ih _ hw]
  | binary c _ _ ihl ihr =>
      rintro _ ⟨⟩
      next hl hr => rw [ihl _ hl, ihr _ hr]
  | @apply o args us hlength _ ih =>
      intro w hw
      obtain ⟨ws, hws, rfl⟩ := unfolds_apply_iff.mp hw
      rw [forall₂_unique (List.forall₂_iff_zip.mpr ⟨hlength, ih _ _⟩) hws]

/-- Every expression has one tree. -/
theorem DepthsKept.existsUnique_unfolds (hs : s.DepthsKept) (e : Expr) : ∃! u, s.Unfolds e u := by
  obtain ⟨u, hu⟩ := hs.exists_unfolds e
  exact ⟨u, hu, hu.unique⟩

/-! ### Depth -/

/-- Arguments unfold to their depths one by one. -/
theorem depthList_eq_of_forall₂ {args us : List Expr}
    (h : List.Forall₂ (fun a u => u.depth = s.expandedDepth a) args us) :
    Expr.depthList us = s.expandedDepthList args := by
  induction h with
  | nil => rfl
  | cons hu _ ih => rw [Expr.depthList, expandedDepthList, hu, ih]

/-- **The expanded depth is the depth of the tree.** -/
theorem Unfolds.depth_eq (hs : s.DepthsKept) {e u : Expr} (h : s.Unfolds e u) :
    u.depth = s.expandedDepth e := by
  induction h with
  | var x => rfl
  | undeclared h => rw [expandedDepth, h]; rfl
  | @formula f g u h _ ih =>
      rw [expandedDepth, h, Option.map_some, Option.getD_some, hs f g h, ← ih]
      simp [Expr.depth, Expr.depthList]
  | not _ ih => rw [Expr.depth, expandedDepth, ih]
  | binary c _ _ ihl ihr => rw [Expr.depth, expandedDepth, ihl, ihr]
  | @apply o args us hlength _ ih =>
      rw [Expr.depth, expandedDepth,
        depthList_eq_of_forall₂ (List.forall₂_iff_zip.mpr ⟨hlength, ih _ _⟩)]

/-! ### Calls -/

/-- The evaluation of an expression can evaluate another: one of its parts, or for a reference the
expression of its formula. -/
inductive Calls (s : Symbols) : Expr → Expr → Prop
  | formula {f : String} {g : Formula} (h : s.formulas.find? f = some g) :
      Calls s (.formula f) g.expr
  | not (e : Expr) : Calls s (.not e) e
  | left (c : Binary) (l r : Expr) : Calls s (.binary c l r) l
  | right (c : Binary) (l r : Expr) : Calls s (.binary c l r) r
  | argument (o : String) {args : List Expr} {a : Expr} (h : a ∈ args) : Calls s (.apply o args) a

/-- What a call calls is less deep. -/
theorem Calls.expandedDepth_lt (hs : s.DepthsKept) {e e' : Expr} (h : s.Calls e e') :
    s.expandedDepth e' < s.expandedDepth e := by
  cases h with
  | @formula f g h =>
      rw [expandedDepth, h, Option.map_some, Option.getD_some, hs f g h]
      omega
  | not e => rw [expandedDepth]; omega
  | left c l r | right c l r => rw [expandedDepth]; omega
  | argument o h =>
      have hle := expandedDepth_le_list (s := s) h
      rw [expandedDepth]; omega

/-- **Calls are nested less deep than the expanded depth**, whatever the tables hold. -/
theorem DepthsKept.length_lt (hs : s.DepthsKept) {e : Expr} {es : List Expr}
    (h : List.IsChain s.Calls (e :: es)) : es.length < s.expandedDepth e := by
  induction es generalizing e with
  | nil => exact expandedDepth_pos e
  | cons e' es ih =>
      obtain ⟨hcall, h⟩ := List.isChain_cons_cons.mp h
      have hlt := hcall.expandedDepth_lt hs
      have hrest := ih h
      rw [List.length_cons]
      omega

end Symbols

end PropBench
