import PropBench.Proofs.Session.Journal
import PropBench.Proofs.Symbols.OperatorSet

/-!
# Proofs — Session — Operator sets

A declared operator set goes back to the statement that defined it, and its check depends on the
tables of its members.

* `Session.DefinesOpset`: a set is defined in a session, and a later session has it.
* `Session.DefinesOpset.members`: the members of the set are what its identifiers stand for.
* `Session.adequacy_checked`: when the check of a declared set succeeds, with which report, and what
  it fails with.
-/

namespace PropBench

namespace Session

variable {s t : Session} {name : String} {identifiers : List String} {set : OperatorSet}

/-! ### Definitions of sets -/

/-- The definition of a set succeeds in `s`, and the session after it leads to `t`. -/
structure DefinesOpset (s : Session) (name : String) (identifiers : List String) (t : Session) :
    Prop where
  succeeds : (s.process (.defineOpset name identifiers)).2.failed = false
  leadsTo : (s.process (.defineOpset name identifiers)).1.LeadsTo t

/-- The definition of an operator set takes nothing away. -/
theorem DefinesOpset.extends (h : s.DefinesOpset name identifiers t) :
    s.symbols.Extends t.symbols :=
  (process_step s _).extends.trans h.leadsTo.symbols_extend

theorem outcome_of_not_failed {statement : Statement}
    (h : (s.process statement).2.failed = false) :
    ∃ o, (s.process statement).2.outcome = .ok o := by
  rw [Result.failed] at h
  split at h
  · exact ⟨_, ‹_›⟩
  · cases h

/-- A set lists what its identifiers stand for, without repetitions and by first mention. -/
theorem DefinesOpset.members (h : s.DefinesOpset name identifiers t) :
    ∃ operators,
      List.Forall₂ (fun i o => s.symbols.resolveOperator i = .ok o) identifiers operators ∧
        t.symbols.opsets.find? name = some ⟨name, operators.eraseDups⟩ := by
  have hlater := h.leadsTo.symbols_extend.opsets name
  rcases s.process_effect (.defineOpset name identifiers) with ⟨-, hno⟩ | ⟨_, _, -, hadm, hadd⟩
  · obtain ⟨o, ho⟩ := outcome_of_not_failed h.succeeds
    cases answers_process ho
    exact absurd ho (hno _ _)
  · generalize (s.process (.defineOpset name identifiers)).1.symbols = u at hadd hlater
    cases hadd with
    | @opset _ _ operators hoperators =>
        refine ⟨operators, hoperators, hlater _ ?_⟩
        have hnone : s.symbols.opsets.find? name = none := by
          rw [← Option.not_isSome_iff_eq_none]
          exact Bool.eq_false_iff.mp hadm.1
        rw [Table.find?_append, hnone, Option.none_or, Symbols.keepFirst_nil]
        simp [Table.find?]

/-- A declared set has been defined. -/
theorem Reachable.exists_definesOpset (hs : s.Reachable)
    (hname : s.symbols.opsets.contains name = true) :
    ∃ (s₀ : Session) (identifiers : List String),
      s₀.Reachable ∧ s₀.DefinesOpset name identifiers s := by
  induction hs with
  | fresh config => cases hname
  | @process s hs statement ih =>
      -- A set that is there before the statement was defined earlier.
      by_cases hold : s.symbols.opsets.contains name = true
      · obtain ⟨s₀, identifiers, hs₀, h⟩ := ih hold
        exact ⟨s₀, identifiers, hs₀, h.succeeds, h.leadsTo.process statement⟩
      · rcases s.process_effect statement with ⟨hsame, -⟩ | ⟨_, _, hok, -, hadd⟩
        · rw [hsame] at hname
          exact absurd hname hold
        · have hsucceeds : (s.process statement).2.failed = false := by rw [Result.failed, hok]
          have hrefl : (s.process statement).1.LeadsTo (s.process statement).1 := .refl
          generalize hu : (s.process statement).1.symbols = u at hadd hname
          cases hadd with
          | opset other _ =>
              obtain rfl : name = other := by
                by_contra hne
                refine absurd hname (Bool.eq_false_iff.mp ((Symbols.contains_append _ _ _).mpr ?_))
                exact ⟨Bool.eq_false_iff.mpr hold, by simpa using hne⟩
              exact ⟨s, _, hs, hsucceeds, hrefl⟩
          | _ => exact absurd hname hold
  | set _ hset ih =>
      rw [set_symbols hset] at hname
      obtain ⟨s₀, identifiers, hs₀, h⟩ := ih hname
      exact ⟨s₀, identifiers, hs₀, h.succeeds, h.leadsTo.set hset⟩

/-! ### The check of a declared set -/

/-- An operator set is kept under its own name. -/
theorem Reachable.opset_name (hs : s.Reachable) (hset : s.symbols.opsets.find? name = some set) :
    set.name = name := by
  obtain ⟨s₀, identifiers, -, h⟩ :=
    hs.exists_definesOpset (Option.isSome_iff_exists.mpr ⟨set, hset⟩)
  obtain ⟨operators, -, hfind⟩ := h.members
  cases hset.symm.trans hfind
  rfl

/-- **The check of a declared set fails on a partial table only, and names it.**  The set lists what
the identifiers of its definition stand for, by first mention.  When all of them are total the
report has the right profile of each; otherwise the fault has the first one that is not, with the
first input that its table does not cover.  The arities that are met are small. -/
theorem adequacy_checked (hs : s.Reachable) (hset : s.symbols.opsets.find? name = some set) :
    (∃ (s₀ : Session) (identifiers : List String),
      s₀.Reachable ∧ s₀.DefinesOpset name identifiers s) ∧
    (∀ (s₀ : Session) (identifiers : List String), s₀.DefinesOpset name identifiers s →
      ∃ operators,
        List.Forall₂ (fun i o => s.symbols.resolveOperator i = .ok o) identifiers operators ∧
          set.operators = operators.eraseDups) ∧
    ((∀ o ∈ set.operators, s.symbols.IsTotal o) → ∃ profiles,
      s.symbols.checkAdequacyNamed name = .ok (.of name profiles) ∧
        profiles.map OperatorProfile.operator = set.operators ∧ set.operators.Nodup ∧
          ∀ p ∈ profiles, s.symbols.IsProfileOf p) ∧
    ((¬ ∀ o ∈ set.operators, s.symbols.IsTotal o) → ∃ before n after operator input,
      set.operators = before ++ .custom n :: after ∧ (∀ o ∈ before, s.symbols.IsTotal o) ∧
        s.symbols.operators.find? n = some operator ∧
          operator.table.FirstUncovered operator.arity input ∧
            s.symbols.checkAdequacyNamed name = .error (.noEntry n input)) ∧
    ∀ o ∈ set.operators,
      ∃ n, s.symbols.arity? o = some n ∧ n ≤ arityCeiling ∧ rowCount n < 2 ^ 32 := by
  have hmembers := hs.opsetsProper.hasOperator hset
  have hcheck := Symbols.checkAdequacyNamed_eq hset
  refine ⟨?defined, fun s₀ identifiers h => ?members, fun htotal => ?total,
    fun hnot => ?notTotal, fun o ho => ?arity⟩
  case defined =>
    exact hs.exists_definesOpset (Option.isSome_iff_exists.mpr ⟨set, hset⟩)
  case members =>
    obtain ⟨operators, hoperators, hfind⟩ := h.members
    cases hset.symm.trans hfind
    exact ⟨operators, hoperators.imp fun _ _ hi => h.extends.resolveOperator hi, rfl⟩
  case total =>
    obtain ⟨profiles, hreport, hmap, hright⟩ := Symbols.checkAdequacy_of_total hmembers htotal
    rw [hs.opset_name hset] at hreport
    have hnodup := (hs.opsetsProper _ (Table.mem_entries hset)).1
    exact ⟨profiles, hcheck.trans hreport, hmap, hnodup, hright⟩
  case notTotal =>
    cases hr : s.symbols.checkAdequacy set with
    | ok report => exact absurd (Symbols.isTotal_of_checkAdequacy hr) hnot
    | error e =>
        obtain ⟨before, n, after, operator, input, hoperators, hbefore, hfind, hfirst, rfl⟩ :=
          Symbols.checkAdequacy_eq_error hmembers hr
        exact ⟨before, n, after, operator, input, hoperators, hbefore, hfind, hfirst,
          hcheck.trans hr⟩
  case arity =>
    obtain ⟨n, hn, hle⟩ := hs.operatorsProper.exists_arity (hmembers o ho)
    refine ⟨n, hn, hle, ?_⟩
    exact Nat.pow_lt_pow_right (by decide) (hle.trans_lt (by decide))

/-- Whether one of two arguments is true and the other false. -/
def parityOperator : Operator :=
  ⟨"parity", ["x", "y"], ⟨[.pattern [.value true, .value false] true,
    .pattern [.value false, .value true] true, .otherwise false]⟩⟩

/-- An operator whose table leaves one input out, in its third row. -/
def gapOperator : Operator :=
  ⟨"gap", ["x", "y"], ⟨[.pattern [.blank, .value false] false,
    .pattern [.value true, .blank] true]⟩⟩

/-- A session with a set of total operators, and one with two operators that are not. -/
def gapSession : Session :=
  (({ config := default } : Session).run
    [.defineOperator parityOperator, .defineOperator gapOperator,
      .defineOperator ⟨"hole", ["x"], ⟨[.pattern [.value true] true]⟩⟩,
      .defineOpset "whole" ["parity", "Not", "parity", "NOT"],
      .defineOpset "torn" ["not", "gap", "Not", "hole"]]).session

theorem reachable_gapSession : gapSession.Reachable := (Reachable.fresh default).run _

/-- The report on `whole` lists each of its two operators once.  In `torn` it is `gap` that the
fault names, and not `hole`. -/
theorem gap_checked :
    gapSession.Reachable ∧
    (∃ profiles, gapSession.symbols.checkAdequacyNamed "whole" = .ok (.of "whole" profiles) ∧
      profiles.map OperatorProfile.operator = [.custom "parity", .builtin .not] ∧
        ∀ p ∈ profiles, gapSession.symbols.IsProfileOf p) ∧
    gapSession.symbols.checkAdequacyNamed "torn" = .error (.noEntry "gap" [false, true]) ∧
      gapOperator.table.FirstUncovered gapOperator.arity [false, true] := by
  have hwhole : gapSession.symbols.opsets.find? "whole" =
      some ⟨"whole", [.custom "parity", .builtin .not]⟩ := by decide +kernel
  have htorn : gapSession.symbols.opsets.find? "torn" =
      some ⟨"torn", [.builtin .not, .custom "gap", .custom "hole"]⟩ := by decide +kernel
  have hparity : gapSession.symbols.operators.find? "parity" = some parityOperator := by
    decide +kernel
  have hgap : gapSession.symbols.operators.find? "gap" = some gapOperator := by decide +kernel
  obtain ⟨-, -, hreport, -⟩ := adequacy_checked reachable_gapSession hwhole
  obtain ⟨-, -, -, hfault, -⟩ := adequacy_checked reachable_gapSession htorn
  have htotal : gapSession.symbols.IsTotal (.custom "parity") := fun operator hfind => by
    cases hparity.symm.trans hfind
    exact Operator.isTotal_of_hasOtherwise rfl
  have hnot : ¬ gapSession.symbols.IsTotal (.custom "gap") := fun h =>
    absurd (h gapOperator hgap [false, true] rfl) (by decide)
  have herror : gapSession.symbols.checkAdequacyNamed "torn" =
      .error (.noEntry "gap" [false, true]) := by decide +kernel
  obtain ⟨profiles, hok, hmap, -, hright⟩ := hreport <|
    List.forall_mem_cons.mpr ⟨htotal, List.forall_mem_singleton.mpr trivial⟩
  obtain ⟨-, n, -, operator, input, -, -, hfind, hfirst, he⟩ := hfault fun h =>
    hnot (h _ (by simp))
  cases herror.symm.trans he
  cases hgap.symm.trans hfind
  exact ⟨reachable_gapSession, ⟨profiles, hok, hmap, hright⟩, herror, hfirst⟩

end Session

end PropBench
