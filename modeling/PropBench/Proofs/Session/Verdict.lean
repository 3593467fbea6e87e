import PropBench.Proofs.Session.OperatorSet
import PropBench.Proofs.Session.Permanence

/-!
# Proofs — Session — Verdict

The verdict on an operator set depends on which operators it lists, and on nothing else.

* `SpeltAlike`: two identifiers that stand for one operator.
* `Symbols.retained_sublist`: what more operators share, fewer do.
* `Session.verdict_of_operators`: the verdicts on two sets of one run.
-/

namespace PropBench

/-! ### Spellings -/

/-- The upper-case names of a connective. -/
def Connective.spellings : Connective → List String
  | .not => ["NOT"]
  | .binary .and => ["AND"]
  | .binary .or => ["OR"]
  | .binary .implies => ["IMPLIES", "THEN"]
  | .binary .iff => ["IFF"]

theorem Connective.ofName?_eq_some_iff {name : String} {c : Connective} :
    ofName? name = some c ↔ name.toUpper ∈ c.spellings := by
  rw [ofName?, ofUpperName?.eq_def]
  split <;> rcases c with _ | _ | _ | _ | _ <;> simp_all [spellings]

/-- Two identifiers that are equal, or are names of one connective, each in any case. -/
def SpeltAlike (i j : String) : Prop :=
  i = j ∨ ∃ c : Connective, i.toUpper ∈ c.spellings ∧ j.toUpper ∈ c.spellings

theorem Connective.mem_all (c : Connective) : c ∈ Connective.all := by
  rcases c with _ | _ | _ | _ | _ <;> decide

instance (i j : String) : Decidable (SpeltAlike i j) :=
  decidable_of_iff (i = j ∨ ∃ c ∈ Connective.all, i.toUpper ∈ c.spellings ∧ j.toUpper ∈ c.spellings)
    (or_congr_right (exists_congr fun c => and_iff_right c.mem_all))

theorem speltAlike_iff {i j : String} : SpeltAlike i j ↔
    i = j ∨ ∃ c, Connective.ofName? i = some c ∧ Connective.ofName? j = some c := by
  simp only [SpeltAlike, Connective.ofName?_eq_some_iff]

namespace Symbols

variable {s t : Symbols} {o o' : OperatorRef} {i j : String} {xs ys : List String}

/-- A connective is never confused with a declared operator, nor two operators with each other. -/
theorem resolveOperator_eq_iff (hi : s.resolveOperator i = .ok o)
    (hj : t.resolveOperator j = .ok o') : o = o' ↔ SpeltAlike i j := by
  rw [speltAlike_iff]
  rcases resolveOperator_eq_ok_iff.mp hi with ⟨c, hc, rfl⟩ | ⟨hc, -, rfl⟩ <;>
    rcases resolveOperator_eq_ok_iff.mp hj with ⟨d, hd, rfl⟩ | ⟨hd, -, rfl⟩ <;> grind

/-- One of the identifiers stands for the operator. -/
def Lists (s : Symbols) (identifiers : List String) (o : OperatorRef) : Prop :=
  ∃ i ∈ identifiers, s.resolveOperator i = .ok o

theorem Lists.hasOperator (h : s.Lists xs o) : s.HasOperator o := by
  obtain ⟨i, -, hi⟩ := h
  exact hasOperator_of_resolveOperator hi

/-- Operators are all among others when each identifier is spelt like one of the others. -/
theorem lists_subset_iff (hx : ∀ i ∈ xs, ∃ o, s.resolveOperator i = .ok o)
    (hy : ∀ j ∈ ys, ∃ o, t.resolveOperator j = .ok o) :
    (∀ o, s.Lists xs o → t.Lists ys o) ↔ ∀ i ∈ xs, ∃ j ∈ ys, SpeltAlike i j := by
  constructor
  · intro hsub i hi
    obtain ⟨o, ho⟩ := hx i hi
    obtain ⟨j, hj, ho'⟩ := hsub o ⟨i, hi, ho⟩
    exact ⟨j, hj, (resolveOperator_eq_iff ho ho').mp rfl⟩
  · rintro hall o ⟨i, hi, ho⟩
    obtain ⟨j, hj, halike⟩ := hall i hi
    obtain ⟨o', ho'⟩ := hy j hj
    obtain rfl := (resolveOperator_eq_iff ho ho').mpr halike
    exact ⟨j, hj, ho'⟩

/-! ### Shared properties -/

variable {set set' : OperatorSet} {report report' : AdequacyReport}

/-- **What more operators share, fewer do.** -/
theorem retained_sublist (h : s.checkAdequacy set = .ok report)
    (h' : t.checkAdequacy set' = .ok report')
    (hsub : ∀ o ∈ set.operators, o ∈ set'.operators ∧ s.function o = t.function o) :
    report'.retained.Sublist report.retained := by
  have hshared : ∀ p, p ∈ report'.retained → p ∈ report.retained := fun p hp => by
    rw [mem_retained_of_checkAdequacy h]
    intro o ho
    obtain ⟨hmem, hfunction⟩ := hsub o ho
    rw [hfunction]
    exact (mem_retained_of_checkAdequacy h' p).mp hp o hmem
  obtain ⟨profiles, -, rfl⟩ := Except.map_eq_ok.mp h
  obtain ⟨profiles', -, rfl⟩ := Except.map_eq_ok.mp h'
  -- Both lists are the list of all properties, filtered.
  exact List.monotone_filter_right _ fun p hp =>
    (List.mem_filter.mp (hshared p (List.mem_filter.mpr ⟨p.mem_all, hp⟩))).2

/-- The verdict is that no property is retained. -/
theorem adequate_of_checkAdequacyNamed {name : String}
    (h : s.checkAdequacyNamed name = .ok report) : report.adequate = report.retained.isEmpty := by
  obtain ⟨set, -, h⟩ := Except.bind_eq_ok.mp h
  obtain ⟨profiles, -, rfl⟩ := Except.map_eq_ok.mp h
  rfl

end Symbols

namespace Session

variable {s t s' t' : Session} {n m : String} {xs ys : List String} {r r' : AdequacyReport}

/-- An operator set is defined from identifiers that name operators. -/
theorem DefinesOpset.resolves (h : s.DefinesOpset n xs s') :
    ∀ i ∈ xs, ∃ o, s.symbols.resolveOperator i = .ok o := by
  obtain ⟨operators, hoperators, -⟩ := h.members
  intro i hi
  obtain ⟨o, -, ho⟩ := exists_of_forall₂ hoperators hi
  exact ⟨o, ho⟩

/-- The members of a set are the operators that its identifiers stand for. -/
theorem DefinesOpset.exists_set (h : s.DefinesOpset n xs s') :
    ∃ set, s'.symbols.opsets.find? n = some set ∧
      ∀ o, o ∈ set.operators ↔ s.symbols.Lists xs o := by
  obtain ⟨operators, hoperators, hfind⟩ := h.members
  refine ⟨_, hfind, fun o => List.mem_eraseDups.trans ⟨fun ho => ?_, ?_⟩⟩
  · obtain ⟨i, hi, hio⟩ := exists_of_forall₂ hoperators.flip ho
    exact ⟨i, hi, hio⟩
  · rintro ⟨i, hi, ho⟩
    obtain ⟨o', hmem, ho'⟩ := exists_of_forall₂ hoperators hi
    cases ho.symm.trans ho'
    exact hmem

/-- An operator that two sets of one run list has one function. -/
theorem DefinesOpset.function_eq (hrun : s.LeadsTo t ∨ t.LeadsTo s) (hx : s.DefinesOpset n xs s')
    (hy : t.DefinesOpset m ys t') {o : OperatorRef} (ho : s.symbols.Lists xs o)
    (ho' : t.symbols.Lists ys o) : s'.symbols.function o = t'.symbols.function o := by
  -- Both later tables extend those in which the set defined first was defined.
  rcases hrun with hrun | hrun
  · rw [hx.extends.function ho.hasOperator,
      (hrun.symbols_extend.trans hy.extends).function ho.hasOperator]
  · rw [(hrun.symbols_extend.trans hx.extends).function ho'.hasOperator,
      hy.extends.function ho'.hasOperator]

/-- More operators retain no more properties, in whatever order the sets were defined. -/
theorem DefinesOpset.retained_sublist (hrun : s.LeadsTo t ∨ t.LeadsTo s)
    (hx : s.DefinesOpset n xs s') (hy : t.DefinesOpset m ys t')
    (h : s'.symbols.checkAdequacyNamed n = .ok r) (h' : t'.symbols.checkAdequacyNamed m = .ok r')
    (hsub : ∀ o, s.symbols.Lists xs o → t.symbols.Lists ys o) :
    r'.retained.Sublist r.retained := by
  obtain ⟨set, hset, hmem⟩ := hx.exists_set
  obtain ⟨set', hset', hmem'⟩ := hy.exists_set
  rw [Symbols.checkAdequacyNamed_eq hset] at h
  rw [Symbols.checkAdequacyNamed_eq hset'] at h'
  refine Symbols.retained_sublist h h' fun o ho => ?_
  have hlisted := (hmem o).mp ho
  have hlisted' := hsub o hlisted
  exact ⟨(hmem' o).mpr hlisted', hx.function_eq hrun hy hlisted hlisted'⟩

/-- **The verdict depends on which operators are listed, and grows with them.**  Two sets of one run
list the same operators when their identifiers are spelt alike, in whatever order and how often;
their reports then have the same verdict and the same shared properties.  A set that lists more
operators shares fewer properties, so it is adequate if the other is. -/
theorem verdict_of_operators (hrun : s.LeadsTo t ∨ t.LeadsTo s) (hx : s.DefinesOpset n xs s')
    (hy : t.DefinesOpset m ys t') (h : s'.symbols.checkAdequacyNamed n = .ok r)
    (h' : t'.symbols.checkAdequacyNamed m = .ok r') :
    ((∀ o, s.symbols.Lists xs o → t.symbols.Lists ys o) ↔ ∀ i ∈ xs, ∃ j ∈ ys, SpeltAlike i j) ∧
    ((∀ o, s.symbols.Lists xs o → t.symbols.Lists ys o) →
      r'.retained.Sublist r.retained ∧ (r.adequate = true → r'.adequate = true)) ∧
    ((∀ o, s.symbols.Lists xs o ↔ t.symbols.Lists ys o) →
      r.adequate = r'.adequate ∧ r.retained = r'.retained) := by
  have hadequate := Symbols.adequate_of_checkAdequacyNamed h
  have hadequate' := Symbols.adequate_of_checkAdequacyNamed h'
  refine ⟨Symbols.lists_subset_iff hx.resolves hy.resolves, fun hsub => ?_, fun hsame => ?_⟩
  · have hretained := hx.retained_sublist hrun hy h h' hsub
    refine ⟨hretained, fun hr => ?_⟩
    rw [hadequate, List.isEmpty_iff] at hr
    rw [hr, List.sublist_nil] at hretained
    rw [hadequate', hretained, List.isEmpty_nil]
  · have hretained : r.retained = r'.retained :=
      (hy.retained_sublist hrun.symm hx h' h fun o => (hsame o).mpr).antisymm
        (hx.retained_sublist hrun hy h h' fun o => (hsame o).mp)
    exact ⟨by rw [hadequate, hadequate', hretained], hretained⟩

/-- In the sample a set of `first` and of implication under two of its names, a set of the same
operators in another order, and a set with negation as well.  What the last one shares is shared by
the first one, and the first two have one verdict. -/
theorem sample_verdict :
    let t := (sampleSession.process (.defineOpset "a" ["first", "then", "Implies"])).1
    let u := (t.process (.defineOpset "b" ["THEN", "first"])).1
    let w := (t.process (.defineOpset "c" ["implies", "not", "first"])).1
    ∃ r r' r'', t.symbols.checkAdequacyNamed "a" = .ok r ∧
      u.symbols.checkAdequacyNamed "b" = .ok r' ∧ w.symbols.checkAdequacyNamed "c" = .ok r'' ∧
        (r.adequate = r'.adequate ∧ r.retained = r'.retained) ∧
          r''.retained.Sublist r.retained ∧ r.retained ≠ r''.retained := by
  intro t u w
  have ha : sampleSession.DefinesOpset "a" ["first", "then", "Implies"] t :=
    ⟨by decide +kernel, .refl⟩
  have hb : t.DefinesOpset "b" ["THEN", "first"] u := ⟨by decide +kernel, .refl⟩
  have hc : t.DefinesOpset "c" ["implies", "not", "first"] w := ⟨by decide +kernel, .refl⟩
  have hr : t.symbols.checkAdequacyNamed "a" = .ok ⟨"a", false, [.preservesTrue],
      [⟨.custom "first", 2, ⟨true, true, true, true, true⟩⟩,
        ⟨.builtin (.binary .implies), 2, ⟨false, true, false, false, false⟩⟩]⟩ := by
    decide +kernel
  have hr' : u.symbols.checkAdequacyNamed "b" = .ok ⟨"b", false, [.preservesTrue],
      [⟨.builtin (.binary .implies), 2, ⟨false, true, false, false, false⟩⟩,
        ⟨.custom "first", 2, ⟨true, true, true, true, true⟩⟩]⟩ := by
    decide +kernel
  have hr'' : w.symbols.checkAdequacyNamed "c" = .ok ⟨"c", true, [],
      [⟨.builtin (.binary .implies), 2, ⟨false, true, false, false, false⟩⟩,
        ⟨.builtin .not, 1, ⟨false, false, false, true, true⟩⟩,
        ⟨.custom "first", 2, ⟨true, true, true, true, true⟩⟩]⟩ := by
    decide +kernel
  have hrun : sampleSession.LeadsTo t ∨ t.LeadsTo sampleSession := .inl (.process .refl _)
  obtain ⟨hab, -, hsame⟩ := verdict_of_operators hrun ha hb hr hr'
  obtain ⟨hba, -⟩ := verdict_of_operators hrun.symm hb ha hr' hr
  obtain ⟨hac, hmore, -⟩ := verdict_of_operators hrun ha hc hr hr''
  refine ⟨_, _, _, hr, hr', hr'', hsame fun o => ⟨hab.mpr ?_ o, hba.mpr ?_ o⟩,
    (hmore (hac.mpr ?_)).1, by decide⟩ <;> decide +kernel

end Session

end PropBench
