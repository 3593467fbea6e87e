import PropBench.Proofs.Logic.Decision

/-!
# Proofs — Logic — Sheffer functions

A function without any of the five properties generates every function by itself.  Three of the
tests are enough to find this out: a function with one of the other two properties has one of these
three.

* `PostProperty.isOf_of_monotone`: a monotone operation keeps false or keeps true.
* `PostProperty.isOf_of_affine`: an affine one does, or is self-dual.
* `PostProperty.sheffer_exact`: the verdict on a single function.
-/

namespace PropBench

/-- A profile without any property. -/
theorem PostProfile.isSheffer_iff {p : PostProfile} :
    p.isSheffer = true ↔ ∀ property, p.holds property = false := by
  rw [isSheffer, properties, List.isEmpty_iff, List.filter_eq_nil_iff]
  refine ⟨fun h property => ?_, fun h property _ => Bool.eq_false_iff.mp (h property)⟩
  exact Bool.eq_false_iff.mpr (h property property.mem_all)

namespace PostProperty

variable {n : Nat} {g : (Fin n → Bool) → Bool}

/-- The value does not fall from the first row to the last. -/
theorem isOf_of_monotone (h : monotone.IsOf g) : preservesFalse.IsOf g ∨ preservesTrue.IsOf g := by
  have hle : g (fun _ => false) ≤ g (fun _ => true) := h _ _ fun _ => Bool.false_le _
  cases hfirst : g (fun _ => false) with
  | false => exact .inl hfirst
  | true => exact .inr (Bool.le_iff_imp.mp hle hfirst)

/-- With every argument turned, a sum of arguments is turned once for each of its terms. -/
theorem sum_not (S : Finset (Fin n)) (x : Fin n → Bool) :
    (∑ k ∈ S, !x k) = ((∑ k ∈ S, x k) ^^ ∑ _k ∈ S, true) := by
  have hnot : ∀ k ∈ S, (!x k) = x k + true := fun k _ => (Bool.xor_true (x k)).symm
  rw [Finset.sum_congr rfl hnot, Finset.sum_add_distrib]
  rfl

/-- An odd number of terms makes a sum of arguments self-dual; an even number makes it the same at
the first row and the last. -/
theorem isOf_of_affine (h : affine.IsOf g) :
    preservesFalse.IsOf g ∨ preservesTrue.IsOf g ∨ selfDual.IsOf g := by
  obtain ⟨c, S, hg⟩ := h
  have hzero : (∑ _k ∈ S, false) = false := Finset.sum_eq_zero fun _ _ => rfl
  have hfirst : g (fun _ => false) = c := by rw [hg, hzero, Bool.xor_false]
  have hlast : g (fun _ => true) = (c ^^ ∑ _k ∈ S, true) := hg _
  -- Negating every argument adds the number of terms.
  cases hodd : ∑ _k ∈ S, true with
  | true =>
      refine .inr (.inr fun x => ?_)
      rw [hg, hg, sum_not, hodd, Bool.xor_true, Bool.xor_not]
  | false =>
      rw [hodd, Bool.xor_false] at hlast
      cases c with
      | false => exact .inl hfirst
      | true => exact .inr (.inl hlast)

/-- **Three properties are enough for a single function.**  A function has none of the five
properties exactly when it keeps neither false nor true and is not self-dual: where the tests of the
first two fail that of monotonicity fails, and where all three fail that of affinity fails. -/
theorem sheffer_exact (f : BooleanFunction) :
    ((PostProfile.of f).isSheffer = true ↔
      ¬ preservesFalse.IsOf f.valueAt ∧ ¬ preservesTrue.IsOf f.valueAt ∧
        ¬ selfDual.IsOf f.valueAt) ∧
    (preservesFalse.holdsFor f = false → preservesTrue.holdsFor f = false →
      monotone.holdsFor f = false) ∧
    (preservesFalse.holdsFor f = false → preservesTrue.holdsFor f = false →
      selfDual.holdsFor f = false → affine.holdsFor f = false) := by
  have hfails : ∀ p : PostProperty, p.holdsFor f = false ↔ ¬ p.IsOf f.valueAt := fun p => by
    rw [← Bool.not_eq_true, (holdsFor_iff_keeps p).trans (keeps_iff_isOf p)]
  rw [PostProfile.isSheffer_iff]
  simp only [PostProfile.holds_of, hfails]
  have hmonotone : ¬ preservesFalse.IsOf f.valueAt → ¬ preservesTrue.IsOf f.valueAt →
      ¬ monotone.IsOf f.valueAt := fun h₀ h₁ h => (isOf_of_monotone h).elim h₀ h₁
  have haffine : ¬ preservesFalse.IsOf f.valueAt → ¬ preservesTrue.IsOf f.valueAt →
      ¬ selfDual.IsOf f.valueAt → ¬ affine.IsOf f.valueAt := fun h₀ h₁ hd h =>
    (isOf_of_affine h).elim h₀ fun h => h.elim h₁ hd
  refine ⟨⟨fun h => ⟨h _, h _, h _⟩, ?_⟩, hmonotone, haffine⟩
  rintro ⟨h₀, h₁, hd⟩ p
  cases p with
  | preservesFalse => exact h₀
  | preservesTrue => exact h₁
  | monotone => exact hmonotone h₀ h₁
  | selfDual => exact hd
  | affine => exact haffine h₀ h₁ hd

/-- The denial of disjunction generates every function by itself. -/
example : (PostProfile.of ⟨2, #v[true, false, false, false]⟩).isSheffer = true := by decide

end PostProperty

end PropBench
