import PropBench.Proofs.Session.Reachable
import PropBench.Proofs.Symbols.OperatorSet

/-!
# Proofs — Session — Adequacy

The verdict on an operator set is that of the evaluator.

* `Session.adequate_iff_complete`: a set is adequate exactly when expressions over it compute every
  operation on one or more variables.
* `Session.mem_retained_iff`: a property is retained exactly when the function of every expression
  over the set has it.

One half of the first is Post's theorem (`ClosedUnder.all`); the other halves are that composition
preserves the relation of each property (`Expr.BuiltFrom.preserves`).
-/

namespace PropBench

/-! ### Completeness -/

/-- No property is kept by every operation on two variables: each relation is broken by the denial
of a conjunction. -/
theorem PostProperty.exists_not_relates (p : PostProperty) :
    ∃ x y : Fin 4 → Bool, p.Relates x ∧ p.Relates y ∧ ¬ p.Relates fun i => !(x i && y i) := by
  cases p with
  | preservesFalse => exact ⟨fun _ => false, fun _ => false, rfl, rfl, Bool.noConfusion⟩
  | preservesTrue => exact ⟨fun _ => true, fun _ => true, rfl, rfl, Bool.noConfusion⟩
  | monotone =>
      exact ⟨![false, true, true, true], fun _ => true, fun _ => rfl, fun _ => rfl,
        fun h => Bool.noConfusion (h rfl)⟩
  | selfDual =>
      exact ⟨![false, true, true, true], ![true, false, true, true], rfl, rfl, Bool.noConfusion⟩
  | affine =>
      exact ⟨![false, false, true, true], ![false, true, false, true], rfl, rfl, Bool.noConfusion⟩

namespace Symbols

variable {s : Symbols} {set : OperatorSet} {report : AdequacyReport}

/-- Operators that share no property compute every operation of one argument or more. -/
theorem complete_of_not_retained (hs : s.DepthsKept) (h : s.checkAdequacy set = .ok report)
    (hr : ∀ p, p ∉ report.retained) {n : Nat} (hn : 1 ≤ n) (xs : Fin n → String)
    (g : (Fin n → Bool) → Bool) :
    ∃ e : Expr, e.BuiltFrom s set.operators (List.ofFn xs) ∧ s.Computes xs e g := by
  obtain ⟨fs, hfs, -⟩ := exists_forall₂ (P := fun _ => True) fun o ho =>
    (function_of_checkAdequacy h o ho).imp fun _ hf => ⟨hf, trivial⟩
  have hclosed : ClosedUnder fs fun g => ∃ e : Expr,
      e.BuiltFrom s set.operators (List.ofFn xs) ∧ s.Computes xs e g :=
    closedUnder_computes hs fun f hf => exists_of_forall₂ hfs.flip hf
  refine hclosed.all hn (fun i => ?_) (fun p => ?_) g
  · refine ⟨.var (xs i), .var (List.mem_ofFn.mpr ⟨i, rfl⟩), fun v b hb => ?_⟩
    rw [evaluate_var, valueOf, hb i]
  · have hp := mt (mem_retained_of_checkAdequacy h p).mpr (hr p)
    simp only [not_forall] at hp
    obtain ⟨o, ho, hno⟩ := hp
    obtain ⟨f, hf, hof⟩ := exists_of_forall₂ hfs ho
    exact ⟨f, hf, fun hk => hno ⟨f, hof, hk⟩⟩

/-- Operators that compute every operation of two arguments share no property. -/
theorem not_retained_of_complete (hs : s.DepthsKept) (h : s.checkAdequacy set = .ok report)
    (hc : ∀ g : (Fin 2 → Bool) → Bool, ∃ e : Expr,
      e.BuiltFrom s set.operators (List.ofFn ![ "x", "y"]) ∧ s.Computes ![ "x", "y"] e g)
    (p : PostProperty) : p ∉ report.retained := by
  intro hp
  -- An expression for the denial of conjunction would keep the relation that this breaks.
  obtain ⟨e, he, hg⟩ := hc fun b => !(b 0 && b 1)
  obtain ⟨x, y, hx, hy, hxy⟩ := p.exists_not_relates
  let v : Fin 4 → Valuation := fun i => ⟨"", [("x", x i), ("y", y i)]⟩
  have hval : ∀ i j, (v i).value? (![ "x", "y"] j) = some (![x i, y i] j) := fun i j => by
    fin_cases j <;> rfl
  obtain ⟨b, hb, hrel⟩ := he.preserves hs ((mem_retained_of_checkAdequacy h p).mp hp) (v := v)
    fun z hz => by
      obtain ⟨j, rfl⟩ := List.mem_ofFn.mp hz
      fin_cases j
      exacts [⟨x, fun i => hval i 0, hx⟩, ⟨y, fun i => hval i 1, hy⟩]
  have hbe : b = fun i => !(x i && y i) := funext fun i =>
    Except.ok.inj ((hb i).symm.trans (hg (v i) _ (hval i)))
  exact hxy (hbe ▸ hrel)

end Symbols

/-! ### Retained properties -/

/-- The valuation that gives the variables of a list the values of an input. -/
def Valuation.ofInput (xs : List String) (input : List Bool) : Valuation := ⟨"", xs.zip input⟩

/-- The valuation made of an input gives each variable its value there. -/
theorem Valuation.value?_ofInput {xs : List String} (hx : xs.Nodup) {input : List Bool}
    (hn : input.length = xs.length) {k : Nat} (hk : k < xs.length) :
    (ofInput xs input).value? xs[k] = some (input.getD k false) := by
  induction xs generalizing input k with
  | nil => cases hk
  | cons x xs ih =>
      obtain ⟨hnot, hx⟩ := List.nodup_cons.mp hx
      obtain ⟨b, input, rfl⟩ := List.exists_cons_of_length_eq_add_one hn
      cases k with
      | zero => simp [ofInput, value?]
      | succ k =>
          have hk : k < xs.length := Nat.lt_of_succ_lt_succ hk
          have hne : x ≠ xs[k] := fun e => hnot (e ▸ List.getElem_mem hk)
          have := ih hx (Nat.succ_injective hn) hk
          simpa [ofInput, value?, hne] using this

/-- There are lists of distinct names of every length. -/
theorem exists_nodup_names (n : Nat) : ∃ xs : List String, xs.Nodup ∧ xs.length = n := by
  have : Infinite String := .of_injective String.ofList fun _ _ h => String.ofList_injective h
  obtain ⟨names, hn⟩ := Infinite.exists_subset_card_eq String n
  exact ⟨names.toList, names.nodup_toList, names.length_toList.trans hn⟩

namespace Symbols

variable {s : Symbols}

/-- The function of an expression: its outputs are its values at the inputs of the variables. -/
def functionOf (s : Symbols) (xs : List String) (e : Expr) : Except Fault BooleanFunction :=
  BooleanFunction.ofFnM xs.length fun input => s.evaluate (.ofInput xs input) e

/-- An expression over total operators computes a function of its variables. -/
theorem exists_functionOf (hs : s.DepthsKept) {ops : List OperatorRef}
    (hops : ∀ o ∈ ops, ∃ f, s.function o = .ok f) {xs : List String} (hx : xs.Nodup) {e : Expr}
    (he : e.BuiltFrom s ops xs) : ∃ f, s.functionOf xs e = .ok f := by
  refine BooleanFunction.exists_ofFnM fun input hn => ?_
  -- Every function preserves the full relation, so only that there are values is left.
  obtain ⟨b, hb, -⟩ := he.preserves hs (R := fun _ => True) (v := fun _ => .ofInput xs input)
    (fun o ho => (hops o ho).imp fun f hf => ⟨hf, fun _ _ _ => trivial⟩) fun x hx' => by
      obtain ⟨k, hk, rfl⟩ := List.mem_iff_getElem.mp hx'
      exact ⟨_, fun _ => Valuation.value?_ofInput hx hn hk, trivial⟩
  exact ⟨b 0, hb 0⟩

/-- The functions computed keep what the operators keep. -/
theorem functionOf_keeps (hs : s.DepthsKept) {ops : List OperatorRef} {p : PostProperty}
    (hops : ∀ o ∈ ops, ∃ f, s.function o = .ok f ∧ f.Keeps p) {xs : List String} (hx : xs.Nodup)
    {e : Expr} (he : e.BuiltFrom s ops xs) {f : BooleanFunction}
    (hf : s.functionOf xs e = .ok f) : f.Keeps p := by
  obtain ⟨hn, hout⟩ := BooleanFunction.ofFnM_eq_ok_rows.mp hf
  intro r hr hrel
  rw [hn] at hr
  obtain ⟨b, hb, hbrel⟩ := he.preserves hs hops
    (v := fun i => .ofInput xs (inputAt xs.length (r i))) fun x hx' => by
      obtain ⟨k, hk, rfl⟩ := List.mem_iff_getElem.mp hx'
      refine ⟨_, fun i => Valuation.value?_ofInput hx (length_inputAt _ _) hk, ?_⟩
      simpa only [getD_inputAt hk] using hrel k (hn.symm ▸ hk)
  have hbe : b = fun i => f.output (r i) := funext fun i =>
    Except.ok.inj ((hb i).symm.trans (hout (r i) (hr i)))
  exact hbe ▸ hbrel

/-- Applied to distinct variables, an operator has its own function. -/
theorem functionOf_applied (hs : s.DepthsKept) {o : OperatorRef} {f : BooleanFunction}
    (hf : s.function o = .ok f) {xs : List String} (hx : xs.Nodup) (hn : xs.length = f.arity)
    {e : Expr} (he : e.IsApplied o (xs.map Expr.var)) : s.functionOf xs e = .ok f := by
  refine BooleanFunction.ofFnM_eq_ok.mpr ⟨hn.symm, fun input hlen => ?_⟩
  refine evaluate_applied hs hf he ((List.length_map _).trans hn) ?_
  rw [List.forall₂_map_left_iff, List.forall₂_iff_get]
  refine ⟨hlen.symm, fun k hk hk' => ?_⟩
  rw [evaluate_var, valueOf, List.get_eq_getElem, Valuation.value?_ofInput hx hlen hk]
  simp [List.getD, hk']

end Symbols

namespace Session

variable {s : Session} {name : String} {set : OperatorSet} {report : AdequacyReport}

/-- **Post's criterion decides functional completeness.** -/
theorem adequate_iff_complete (hs : s.Reachable) (hset : s.symbols.opsets.find? name = some set)
    (h : s.symbols.checkAdequacyNamed name = .ok report) :
    report.adequate = true ↔ ∀ n, 1 ≤ n → ∀ xs : Fin n → String, Function.Injective xs →
      ∀ g : (Fin n → Bool) → Bool, ∃ e : Expr,
        e.BuiltFrom s.symbols set.operators (List.ofFn xs) ∧ s.symbols.Computes xs e g := by
  have hkept := hs.formulasChecked.depthsKept
  rw [Symbols.checkAdequacyNamed, Table.resolve_eq_ok_iff.mpr hset] at h
  rw [Symbols.adequate_iff_retained h]
  constructor
  · intro hr n hn xs _ g
    exact Symbols.complete_of_not_retained hkept h hr hn xs g
  · intro hc p
    exact Symbols.not_retained_of_complete hkept h
      (fun g => hc 2 (by decide) _ (by decide) g) p

/-- A session with the denial of conjunction as an operator, and two sets of operators. -/
def denialSession : Session :=
  (({ config := default } : Session).run
    [.defineOperator ⟨"nand", ["x", "y"], ⟨[.pattern [.value true, .value true] false,
        .otherwise true]⟩⟩,
      .defineOpset "denial" ["nand"],
      .defineOpset "lattice" ["AND", "OR"]]).session

theorem reachable_denialSession : denialSession.Reachable := (Reachable.fresh default).run _

/-- Every operation on one or more variables is a composition of denials of conjunction. -/
theorem denial_complete :
    ∃ report, denialSession.symbols.checkAdequacyNamed "denial" = .ok report ∧
      report.adequate = true ∧ ∀ n, 1 ≤ n → ∀ xs : Fin n → String, Function.Injective xs →
        ∀ g : (Fin n → Bool) → Bool, ∃ e : Expr,
          e.BuiltFrom denialSession.symbols [.custom "nand"] (List.ofFn xs) ∧
            denialSession.symbols.Computes xs e g := by
  have hset : denialSession.symbols.opsets.find? "denial" = some ⟨"denial", [.custom "nand"]⟩ := by
    decide +kernel
  have h : denialSession.symbols.checkAdequacyNamed "denial" =
      .ok ⟨"denial", true, [], [⟨.custom "nand", 2, ⟨false, false, false, false, false⟩⟩]⟩ := by
    decide +kernel
  exact ⟨_, h, rfl, (adequate_iff_complete reachable_denialSession hset h).mp rfl⟩

/-- **The retained properties** are those of the functions of all expressions over the set. -/
theorem mem_retained_iff (hs : s.Reachable) (hset : s.symbols.opsets.find? name = some set)
    (h : s.symbols.checkAdequacyNamed name = .ok report) (p : PostProperty) :
    p ∈ report.retained ↔ ∀ xs : List String, xs.Nodup → ∀ e : Expr,
      e.BuiltFrom s.symbols set.operators xs →
        ∃ f, s.symbols.functionOf xs e = .ok f ∧ p.holdsFor f = true := by
  have hkept := hs.formulasChecked.depthsKept
  rw [Symbols.checkAdequacyNamed, Table.resolve_eq_ok_iff.mpr hset] at h
  rw [Symbols.mem_retained_of_checkAdequacy h]
  constructor
  · intro hops xs hx e he
    obtain ⟨f, hf⟩ :=
      Symbols.exists_functionOf hkept (Symbols.function_of_checkAdequacy h) hx he
    have hk := Symbols.functionOf_keeps hkept hops hx he hf
    exact ⟨f, hf, (PostProperty.holdsFor_iff_keeps p).mpr hk⟩
  · intro hall o ho
    obtain ⟨f, hf⟩ := Symbols.function_of_checkAdequacy h o ho
    obtain ⟨xs, hx, hn⟩ := exists_nodup_names f.arity
    have hvars : ∀ a ∈ xs.map Expr.var, a.BuiltFrom s.symbols set.operators xs :=
      List.forall_mem_map.mpr fun x hx => .var hx
    obtain ⟨e, he, happ⟩ := Expr.BuiltFrom.exists_applied ho hf ((List.length_map _).trans hn) hvars
    obtain ⟨f', hf', hp⟩ := hall xs hx e he
    rw [Symbols.functionOf_applied hkept hf hx hn happ] at hf'
    cases hf'
    exact ⟨f, hf, (PostProperty.holdsFor_iff_keeps p).mp hp⟩

/-- Every composition of conjunctions and disjunctions is monotone. -/
theorem lattice_monotone :
    ∃ report, denialSession.symbols.checkAdequacyNamed "lattice" = .ok report ∧
      .monotone ∈ report.retained ∧ ∀ xs : List String, xs.Nodup → ∀ e : Expr,
        e.BuiltFrom denialSession.symbols [.builtin (.binary .and), .builtin (.binary .or)] xs →
          ∃ f, denialSession.symbols.functionOf xs e = .ok f ∧
            PostProperty.monotone.holdsFor f = true := by
  have hset : denialSession.symbols.opsets.find? "lattice" =
      some ⟨"lattice", [.builtin (.binary .and), .builtin (.binary .or)]⟩ := by
    decide +kernel
  have h : denialSession.symbols.checkAdequacyNamed "lattice" =
      .ok ⟨"lattice", false, [.preservesFalse, .preservesTrue, .monotone],
        [⟨.builtin (.binary .and), 2, ⟨true, true, true, false, false⟩⟩,
          ⟨.builtin (.binary .or), 2, ⟨true, true, true, false, false⟩⟩]⟩ := by
    decide +kernel
  exact ⟨_, h, by decide,
    (mem_retained_iff reachable_denialSession hset h .monotone).mp (by decide)⟩

end Session

end PropBench
