import Mathlib

/-!
# Proofs — Except

When a computation that can fail succeeds, and when it fails: one equivalence for each way to put
computations together.  At the end, what such computations over lists need of lists.
-/

namespace PropBench

variable {ε α β : Type}

theorem Except.bind_eq_ok {x : Except ε α} {f : α → Except ε β} {b : β} :
    x >>= f = .ok b ↔ ∃ a, x = .ok a ∧ f a = .ok b := by
  cases x with
  | error e => simp [bind, Except.bind]
  | ok a => simp [bind, Except.bind]

theorem Except.bind_eq_error {x : Except ε α} {f : α → Except ε β} {e : ε} :
    x >>= f = .error e ↔ x = .error e ∨ ∃ a, x = .ok a ∧ f a = .error e := by
  cases x with
  | error e => simp [bind, Except.bind]
  | ok a => simp [bind, Except.bind]

/-- A check in front of a computation. -/
theorem Except.check_bind_eq_ok {x : Except ε Unit} {f : Unit → Except ε β} {b : β} :
    x >>= f = .ok b ↔ x = .ok () ∧ f () = .ok b := by
  cases x with
  | error e => simp [bind, Except.bind]
  | ok u => simp [bind, Except.bind]

theorem Except.map_eq_ok {x : Except ε α} {f : α → β} {b : β} :
    x.map f = .ok b ↔ ∃ a, x = .ok a ∧ f a = b := by
  cases x <;> simp [Except.map]

theorem Except.map_eq_error {x : Except ε α} {f : α → β} {e : ε} :
    x.map f = .error e ↔ x = .error e := by
  cases x <;> simp [Except.map]

/-- A list is mapped if each of its items is. -/
theorem Except.mapM_eq_ok {f : α → Except ε β} {as : List α} {bs : List β} :
    as.mapM f = .ok bs ↔ List.Forall₂ (fun a b => f a = .ok b) as bs := by
  induction as generalizing bs with
  | nil =>
      rw [List.mapM_nil, List.forall₂_nil_left_iff]
      exact ⟨fun h => (Except.ok.inj h).symm, fun h => h ▸ rfl⟩
  | cons a as ih =>
      rw [List.mapM_cons, Except.bind_eq_ok, List.forall₂_cons_left_iff]
      constructor
      · rintro ⟨b, hb, h⟩
        obtain ⟨cs, hcs, h⟩ := Except.bind_eq_ok.mp h
        exact ⟨b, cs, hb, ih.mp hcs, (Except.ok.inj h).symm⟩
      · rintro ⟨b, cs, hb, hcs, rfl⟩
        exact ⟨b, hb, Except.bind_eq_ok.mpr ⟨cs, ih.mpr hcs, rfl⟩⟩

/-- A list fails at the first member that does. -/
theorem Except.mapM_eq_error {f : α → Except ε β} {as : List α} {e : ε} :
    as.mapM f = .error e ↔ ∃ before a after bs, as = before ++ a :: after ∧
      List.Forall₂ (fun a b => f a = .ok b) before bs ∧ f a = .error e := by
  induction as with
  | nil => rw [List.mapM_nil]; exact iff_of_false (by rintro ⟨⟩) (by simp)
  | cons a as ih =>
      rw [List.mapM_cons]
      constructor
      · intro h
        -- The list fails at its head, or at the first member behind that does.
        cases ha : f a with
        | error e' =>
            rw [ha] at h
            cases h
            exact ⟨[], a, as, [], rfl, .nil, ha⟩
        | ok b =>
            rw [ha] at h
            cases has : as.mapM f with
            | ok bs => rw [has] at h; cases h
            | error e' =>
                rw [has] at h
                cases h
                obtain ⟨before, c, after, bs, rfl, hbs, hc⟩ := ih.mp has
                exact ⟨a :: before, c, after, b :: bs, rfl, .cons ha hbs, hc⟩
      · rintro ⟨before, c, after, bs, has, hbs, hc⟩
        cases hbs with
        | nil => cases has; rw [hc]; rfl
        | @cons _ b before bs ha hbs =>
            cases has
            rw [ha, ih.mpr ⟨before, c, after, bs, rfl, hbs, hc⟩]
            rfl

theorem Except.mapM_congr {f g : α → Except ε β} {as : List α} (h : ∀ a ∈ as, f a = g a) :
    as.mapM f = as.mapM g := by
  induction as with
  | nil => rfl
  | cons a as ih =>
      rw [List.mapM_cons, List.mapM_cons, h a (by simp), ih fun b hb => h b (by simp [hb])]

theorem Except.ofFnM_eq_ok {n : Nat} {f : Fin n → Except ε α} {v : Vector α n} :
    Vector.ofFnM f = .ok v ↔ ∀ i : Fin n, f i = .ok v[i] := by
  constructor
  · intro h
    induction n with
    | zero => exact fun i => i.elim0
    | succ n ih =>
        rw [Vector.ofFnM_succ] at h
        obtain ⟨w, hw, h⟩ := Except.bind_eq_ok.mp h
        obtain ⟨a, ha, h⟩ := Except.bind_eq_ok.mp h
        cases h
        intro i
        cases i using Fin.lastCases with
        | last => simpa using ha
        | cast i => simpa using ih hw i
  · intro h
    have e : f = pure ∘ fun i => v[i] := funext h
    rw [e, Vector.ofFnM_pure_comp]
    exact congrArg _ (Vector.ext fun i hi => by simp)

theorem Except.exists_ofFnM_eq_ok {n : Nat} {f : Fin n → Except ε α} :
    (∃ v, Vector.ofFnM f = .ok v) ↔ ∀ i, ∃ a, f i = .ok a := by
  simp only [Except.ofFnM_eq_ok]
  refine ⟨fun ⟨v, hv⟩ i => ⟨v[i], hv i⟩, fun h => ?_⟩
  choose a ha using h
  exact ⟨Vector.ofFn a, fun i => by simpa using ha i⟩

/-- A vector fails at the first index that does. -/
theorem Except.ofFnM_eq_error {n : Nat} {f : Fin n → Except ε α} {e : ε} :
    Vector.ofFnM f = .error e ↔ ∃ i, f i = .error e ∧ ∀ j, j < i → ∃ a, f j = .ok a := by
  induction n with
  | zero =>
      rw [Vector.ofFnM_zero]
      exact iff_of_false (by rintro ⟨⟩) (by rintro ⟨i, -⟩; exact i.elim0)
  | succ n ih =>
      have hlast : ∀ w : Vector α n, (do let a ← f (Fin.last n); pure (w.push a)) = .error e ↔
          f (Fin.last n) = .error e := fun w => Except.map_eq_error
      rw [Vector.ofFnM_succ, Except.bind_eq_error, ih, Fin.exists_fin_succ']
      simp only [hlast, exists_and_right, Except.exists_ofFnM_eq_ok, Fin.forall_fin_succ',
        Fin.castSucc_lt_castSucc_iff, Fin.castSucc_lt_last, lt_irrefl, not_lt_of_ge, Fin.le_last,
        forall_const, false_imp_iff, and_true]
      rw [and_comm (b := f (Fin.last n) = .error e)]

/-! ### Causes of failure -/

/-- A result that is a failure only for causes that satisfy `Q`. -/
def FailsOnly (Q : ε → Prop) (r : Except ε α) : Prop := ∀ e, r = .error e → Q e

namespace FailsOnly

variable {Q : ε → Prop} {r : Except ε α}

theorem ok (a : α) : FailsOnly Q (.ok a) := fun _ h => by cases h

theorem error {e : ε} (h : Q e) : FailsOnly Q (.error e : Except ε α) := by
  rintro _ ⟨⟩; exact h

theorem bind {k : α → Except ε β} (hr : FailsOnly Q r)
    (hk : ∀ a, r = .ok a → FailsOnly Q (k a)) : FailsOnly Q (r >>= k) := by
  cases r with
  | error f => exact fun g h => hr g (congrArg _ (Except.error.inj h))
  | ok a => exact hk a rfl

theorem map (hr : FailsOnly Q r) (g : α → β) : FailsOnly Q (r.map g) :=
  fun f h => hr f (Except.map_eq_error.mp h)

theorem mapM {f : α → Except ε β} {as : List α} (h : ∀ a ∈ as, FailsOnly Q (f a)) :
    FailsOnly Q (as.mapM f) := by
  induction as with
  | nil => exact ok []
  | cons a as ih =>
      obtain ⟨ha, has⟩ := List.forall_mem_cons.mp h
      rw [List.mapM_cons]
      exact ha.bind fun _ _ => (ih has).bind fun _ _ => ok _

end FailsOnly

/-! ### Members -/

theorem encard_setOf_mem {as : List α} (h : as.Nodup) : {a | a ∈ as}.encard = as.length := by
  classical
  rw [← List.coe_toFinset, Set.encard_coe_eq_coe_finsetCard, List.toFinset_card_of_nodup h]

/-- A member at the end is kept if it does not stand before. -/
theorem eraseDups_append_singleton [DecidableEq α] (as : List α) (a : α) :
    (as ++ [a]).eraseDups = if a ∈ as then as.eraseDups else as.eraseDups ++ [a] := by
  rw [List.eraseDups_append, List.removeAll]
  split
  · next h => simp [h]
  · next h => simp [h, List.eraseDups_cons]

theorem nodup_eraseDups [DecidableEq α] (as : List α) : as.eraseDups.Nodup := by
  induction as using List.reverseRecOn with
  | nil => exact List.nodup_nil
  | append_singleton as a ih =>
      rw [eraseDups_append_singleton]
      split
      · exact ih
      · next h =>
          rw [List.nodup_append_comm]
          exact List.nodup_cons.mpr ⟨mt List.mem_eraseDups.mp h, ih⟩

/-! ### Partners -/

/-- A partner for each member of a list. -/
theorem exists_forall₂ {R : α → β → Prop} {P : β → Prop} {as : List α}
    (h : ∀ a ∈ as, ∃ b, R a b ∧ P b) : ∃ bs, List.Forall₂ R as bs ∧ ∀ b ∈ bs, P b := by
  induction as with
  | nil => exact ⟨[], .nil, by simp⟩
  | cons a as ih =>
      obtain ⟨b, hb, hP⟩ := h a (by simp)
      obtain ⟨bs, hbs, hPs⟩ := ih fun c hc => h c (by simp [hc])
      exact ⟨b :: bs, .cons hb hbs, List.forall_mem_cons.mpr ⟨hP, hPs⟩⟩

/-- Partners that are the only ones make the only list of partners. -/
theorem forall₂_unique {R : α → β → Prop} {as : List α} {bs cs : List β}
    (h : List.Forall₂ (fun a b => ∀ c, R a c → c = b) as bs) (hcs : List.Forall₂ R as cs) :
    cs = bs := by
  induction h generalizing cs with
  | nil => exact List.forall₂_nil_left_iff.mp hcs
  | cons hb _ ih =>
      obtain ⟨c, tail, hc, htail, rfl⟩ := List.forall₂_cons_left_iff.mp hcs
      rw [hb c hc, ih htail]

theorem exists_of_forall₂ {R : α → β → Prop} {as : List α} {bs : List β}
    (h : List.Forall₂ R as bs) {a : α} (ha : a ∈ as) : ∃ b ∈ bs, R a b := by
  induction h with
  | nil => cases ha
  | cons hab _ ih =>
      rcases List.mem_cons.mp ha with rfl | ha
      · exact ⟨_, by simp, hab⟩
      · obtain ⟨b, hb, h⟩ := ih ha
        exact ⟨b, List.mem_cons_of_mem _ hb, h⟩

end PropBench
