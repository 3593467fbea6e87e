import PropBench.Proofs.Logic.Post

/-!
# Proofs — Logic — Completeness

Post's theorem for sets of operations.  `C` is a set of operations `α → Bool` closed under the
functions of a list (`ClosedUnder`): it holds the variables, and applying a function of the list to
members of `C` gives a member of `C`.

* `ClosedUnder.const_and_not`: with a function that lacks each of the first four properties, `C`
  has the constants and negation.
* `ClosedUnder.and_of_not_affine`: with one that is not affine it has conjunction.
* `ClosedUnder.all`: with all five, and the projections, it has every operation on `n` arguments.

The arguments of a function are chosen one by one so that they make one of a few known rows
(`ClosedUnder.apply`).
-/

namespace PropBench

variable {α : Type} {fs : List BooleanFunction} {C : (α → Bool) → Prop}

/-- Applying a function of the list to members of `C` gives a member of `C`. -/
def ClosedUnder (fs : List BooleanFunction) (C : (α → Bool) → Prop) : Prop :=
  ∀ f ∈ fs, ∀ gs : List (α → Bool), gs.length = f.arity → (∀ g ∈ gs, C g) →
    C fun a => f.output (rowOf (gs.map fun g => g a))

namespace ClosedUnder

/-- Arguments given with the row that they make. -/
theorem apply (hC : ClosedUnder fs C) {f : BooleanFunction} (hf : f ∈ fs)
    (args : Nat → α → Bool) (row : α → Nat) (hargs : ∀ k, k < f.arity → C (args k))
    (hr : ∀ a, row a < f.rows)
    (hb : ∀ a k, k < f.arity → args k a = (row a).testBit k) : C fun a => f.output (row a) := by
  have hg := hC f hf ((List.range f.arity).map args) (by simp) fun g hg => by
    obtain ⟨k, hk, rfl⟩ := List.mem_map.mp hg
    exact hargs k (List.mem_range.mp hk)
  have e : ∀ a, rowOf (((List.range f.arity).map args).map fun g => g a) = row a := fun a =>
    rowOf_eq (by simp) (hr a) fun k hk => by simp [List.getD, hk, hb a k hk]
  simpa only [e] using hg

/-! ### Constants and negation -/

/-- A function applied to one argument throughout. -/
theorem diagonal (hC : ClosedUnder fs C) {f : BooleanFunction} (hf : f ∈ fs) {y : α → Bool}
    (hy : C y) : C fun a => if y a then f.output (f.rows - 1) else f.output 0 := by
  have h := hC.apply hf (fun _ => y) (fun a => if y a then f.rows - 1 else 0) (fun _ _ => hy)
    (fun a => by cases y a; exacts [zero_lt_rowCount _, last_lt _]) fun a k hk => by
      cases y a with
      | false => exact (Nat.zero_testBit k).symm
      | true => exact ((testBit_last f.arity k).trans (decide_eq_true hk)).symm
  convert h using 2 with a
  cases y a <;> rfl

/-- With negation, a function that is not self-dual makes the constants. -/
theorem const_of_not (hC : ClosedUnder fs C) (hnot : ∀ y, C y → C fun a => !y a) {x : α → Bool}
    (hx : C x) {f : BooleanFunction} (hf : f ∈ fs) (hs : ¬ f.Keeps .selfDual) (b : Bool) :
    C fun _ => b := by
  rw [PostProperty.keeps_selfDual_iff] at hs
  simp only [not_forall] at hs
  obtain ⟨r, hr, hne⟩ := hs
  have he : f.output (f.complementRow r) = f.output r := by simpa using hne
  -- Applied to `x` and its negation, the function is at a row or at the complement.
  have h := hC.apply hf (fun k a => if r.testBit k then x a else !x a)
    (fun a => if x a then r else f.complementRow r)
    (fun k _ => by cases r.testBit k; exacts [hnot x hx, hx])
    (fun a => by cases x a; exacts [f.complementRow_lt hr, hr]) fun a k hk => by
      cases x a with
      | false =>
          show _ = (f.complementRow r).testBit k
          rw [f.testBit_complementRow, decide_eq_true hk]; cases r.testBit k <;> rfl
      | true => cases hb : r.testBit k <;> simp [hb]
  have hc : C fun _ => f.output r := by
    convert h using 2 with a
    cases x a <;> simp [he]
  by_cases hb : b = f.output r
  · rw [hb]; exact hc
  · rw [Bool.eq_not_of_ne hb]; exact hnot _ hc

/-- With the constants, a function that is not monotone makes negation. -/
theorem not_of_const (hC : ClosedUnder fs C) (hconst : ∀ b, C fun _ => b) {f : BooleanFunction}
    (hf : f ∈ fs) (hm : ¬ f.Keeps .monotone) {y : α → Bool} (hy : C y) : C fun a => !y a := by
  rw [PostProperty.keeps_monotone_iff] at hm
  simp only [not_forall] at hm
  obtain ⟨r, k, hr, hk, hrk, hr₁, hr₀⟩ := hm
  -- All arguments but one are constants; the one that is raised is `y`.
  have h := hC.apply hf (fun l => if l = k then y else fun _ => r.testBit l)
    (fun a => if y a then raise r k else r)
    (fun l _ => by by_cases e : l = k <;> simp [e, hy, hconst])
    (fun a => by cases y a; exacts [hr, raise_lt_rowCount hr hk]) fun a l _ => by
      by_cases e : l = k <;> cases hya : y a <;> simp [e, hya, hrk]
  convert h using 2 with a
  cases y a <;> simp [hr₁, Bool.eq_false_of_not_eq_true hr₀]

/-- Functions that break every property give the constants and the negation. -/
theorem const_and_not (hC : ClosedUnder fs C) (hfs : ∀ p, ∃ f ∈ fs, ¬ f.Keeps p) {x : α → Bool}
    (hx : C x) : (∀ b, C fun _ => b) ∧ ∀ y, C y → C fun a => !y a := by
  obtain ⟨f₀, hf₀, h₀⟩ := hfs .preservesFalse
  obtain ⟨f₁, hf₁, h₁⟩ := hfs .preservesTrue
  obtain ⟨fm, hfm, hm⟩ := hfs .monotone
  obtain ⟨fd, hfd, hd⟩ := hfs .selfDual
  rw [PostProperty.keeps_preservesFalse_iff, Bool.not_eq_false] at h₀
  rw [PostProperty.keeps_preservesTrue_iff, Bool.not_eq_true] at h₁
  have ofNot : (∀ y, C y → C fun a => !y a) →
      (∀ b, C fun _ => b) ∧ ∀ y, C y → C fun a => !y a :=
    fun hnot => ⟨fun b => hC.const_of_not hnot hx hfd hd b, hnot⟩
  -- On one argument, `f₀` and `f₁` are the two constants unless one of them is negation.
  cases e₀ : f₀.output (f₀.rows - 1) with
  | false =>
      refine ofNot fun y hy => ?_
      convert hC.diagonal hf₀ hy using 2 with a
      cases y a <;> simp [h₀, e₀]
  | true =>
      cases e₁ : f₁.output 0 with
      | true =>
          refine ofNot fun y hy => ?_
          convert hC.diagonal hf₁ hy using 2 with a
          cases y a <;> simp [h₁, e₁]
      | false =>
          have hconst : ∀ b, C fun _ => b := by
            have ht := hC.diagonal hf₀ hx
            have hf := hC.diagonal hf₁ hx
            simp only [h₀, e₀, h₁, e₁, ite_self] at ht hf
            intro b; cases b; exacts [hf, ht]
          exact ⟨hconst, fun y hy => hC.not_of_const hconst hfm hm hy⟩

/-! ### Conjunction -/

/-- A square of outputs that add up to true is a conjunction, up to negations. -/
theorem and_of_square {c₀₀ c₀₁ c₁₀ c₁₁ : Bool} (h : (c₀₀ ^^ c₀₁ ^^ (c₁₀ ^^ c₁₁)) = true)
    (p q : Bool) :
    (p && q) = ((if p ^^ (c₀₁ ^^ c₀₀) then (if q ^^ (c₁₀ ^^ c₀₀) then c₁₁ else c₁₀)
      else if q ^^ (c₁₀ ^^ c₀₀) then c₀₁ else c₀₀) ^^ (c₀₀ ^^ ((c₁₀ ^^ c₀₀) && (c₀₁ ^^ c₀₀)))) := by
  revert c₀₀ c₀₁ c₁₀ c₁₁ p q; decide

/-- The row of a square at which argument `k` is `p` and argument `l` is `q`. -/
def corner (r k l : Nat) (p q : Bool) : Nat :=
  if p then (if q then toggle (toggle r l) k else toggle r k) else if q then toggle r l else r

/-- The corners of a square of rows are rows of the table. -/
theorem corner_lt {f : BooleanFunction} {r k l : Nat} (hr : r < f.rows) (hk : k < f.arity)
    (hl : l < f.arity) (p q : Bool) : corner r k l p q < f.rows := by
  cases p <;> cases q
  exacts [hr, toggle_lt_rowCount hr hl, toggle_lt_rowCount hr hk,
    toggle_lt_rowCount (toggle_lt_rowCount hr hl) hk]

/-- At a corner two arguments have the values chosen, and the others those of the square. -/
theorem testBit_corner {r k l : Nat} (hkl : k ≠ l) (hrk : r.testBit k = false)
    (hrl : r.testBit l = false) (p q : Bool) (m : Nat) :
    (corner r k l p q).testBit m = if m = k then p else if m = l then q else r.testBit m := by
  by_cases ek : m = k
  · subst ek; cases p <;> cases q <;> simp [corner, hkl, hrk]
  · by_cases el : m = l
    · subst el; cases p <;> cases q <;> simp [corner, ek, hrl]
    · cases p <;> cases q <;> simp [corner, ek, el]

/-- With the constants and negation, a function that is not affine makes conjunction. -/
theorem and_of_not_affine (hC : ClosedUnder fs C) (hconst : ∀ b, C fun _ => b)
    (hnot : ∀ y, C y → C fun a => !y a) {f : BooleanFunction} (hf : f ∈ fs)
    (ha : ¬ f.Keeps .affine) {y z : α → Bool} (hy : C y) (hz : C z) : C fun a => y a && z a := by
  rw [PostProperty.keeps_affine_iff, PostProperty.SquaresVanish] at ha
  simp only [not_forall, Bool.not_eq_false] at ha
  obtain ⟨r, k, l, hkl, hk, hl, hr, hrk, hrl, hsq⟩ := ha
  have hxor : ∀ (w : α → Bool) b, C w → C fun a => w a ^^ b := fun w b hw => by
    cases b with
    | false => simpa using hw
    | true => simpa using hnot w hw
  let d := f.output (toggle r l) ^^ f.output r
  let e := f.output (toggle r k) ^^ f.output r
  -- The two arguments of the square are `y` and `z`, negated as its outputs call for.
  have h := hC.apply hf
    (fun m => if m = k then fun a => y a ^^ d else if m = l then fun a => z a ^^ e
      else fun _ => r.testBit m)
    (fun a => corner r k l (y a ^^ d) (z a ^^ e))
    (fun m _ => by
      split
      · exact hxor y d hy
      · split
        · exact hxor z e hz
        · exact hconst _)
    (fun a => corner_lt hr hk hl _ _) fun a m _ => by
      rw [testBit_corner hkl hrk hrl]
      split_ifs <;> rfl
  convert hxor _ (f.output r ^^ (e && d)) h using 2 with a
  rw [and_of_square hsq (y a) (z a)]
  show ((if y a ^^ d then (if z a ^^ e then _ else _) else if z a ^^ e then _ else _) ^^ _) =
    (f.output (corner r k l (y a ^^ d) (z a ^^ e)) ^^ _)
  cases y a ^^ d <;> cases z a ^^ e <;> rfl

end ClosedUnder

/-! ### All operations -/

section Operations

variable {n : Nat} {C : ((Fin n → Bool) → Bool) → Prop} (hconst : ∀ b, C fun _ => b)
  (hnot : ∀ y, C y → C fun a => !y a) (hand : ∀ y z, C y → C z → C fun a => y a && z a)
  (hvar : ∀ i, C fun a => a i)

include hconst hnot hand hvar

/-- The operation that is true where the arguments of `T` are those of `b`. -/
theorem minterm (b : Fin n → Bool) (T : Finset (Fin n)) :
    C fun a => decide (∀ i ∈ T, a i = b i) := by
  induction T using Finset.induction_on with
  | empty => simpa using hconst true
  | insert i T _ ih =>
      have hi : C fun a => decide (a i = b i) := by
        cases hb : b i with
        | false => simpa using hnot _ (hvar i)
        | true => simpa using hvar i
      convert hand _ _ hi ih using 2 with a
      simp

/-- The operation that is true at the inputs of `S`. -/
theorem disjunction (S : Finset (Fin n → Bool)) : C fun a => decide (a ∈ S) := by
  induction S using Finset.induction_on with
  | empty => simpa using hconst false
  | insert b S _ ih =>
      have hb : C fun a => decide (a = b) := by
        convert minterm hconst hnot hand hvar b Finset.univ using 2 with a
        simp [funext_iff]
      convert hnot _ (hand _ _ (hnot _ hb) (hnot _ ih)) using 2 with a
      simp [Finset.mem_insert]

/-- Every operation is a disjunction of minterms, so it is in the class. -/
theorem all_operations (g : (Fin n → Bool) → Bool) : C g := by
  convert disjunction hconst hnot hand hvar (Finset.univ.filter fun a => g a = true) using 2 with a
  simp

end Operations

/-- **Post's theorem**, the sufficient half: operations on at least one argument that are closed
under functions of which each of the five properties is lacked by one are all operations. -/
theorem ClosedUnder.all {n : Nat} {C : ((Fin n → Bool) → Bool) → Prop} (hC : ClosedUnder fs C)
    (hn : 0 < n) (hvar : ∀ i, C fun a => a i) (hfs : ∀ p, ∃ f ∈ fs, ¬ f.Keeps p)
    (g : (Fin n → Bool) → Bool) : C g := by
  obtain ⟨hconst, hnot⟩ := hC.const_and_not hfs (hvar ⟨0, hn⟩)
  obtain ⟨f, hf, ha⟩ := hfs .affine
  exact all_operations hconst hnot
    (fun y z hy hz => hC.and_of_not_affine hconst hnot hf ha hy hz) hvar g

end PropBench
