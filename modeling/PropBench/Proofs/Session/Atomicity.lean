import PropBench.Proofs.Session.Reachable

/-!
# Proofs — Session — Atomicity

A statement does all that it says or nothing (`Session.process_atomic`).  The declarations of a list
of variables are made one by one; that none of them fails when the list has passed the check is
`Symbols.on_forM_defineVariable`.
-/

namespace PropBench

namespace Session

/-- **Every statement is all or nothing.**  A statement that fails and one that asks a question
leave the tables as they are.  One that declares names adds them with their definitions to the
table of one namespace, where they were not declared, and leaves the other tables as they are.  A
text that cannot be read or is no program changes nothing of the session, and an observer is told
nothing. -/
theorem process_atomic (s : Session) (statement : Statement) :
    (∀ f, (s.process statement).2.outcome = .error f →
      (s.process statement).1.symbols = s.symbols) ∧
    (statement.kind = .evaluate ∨ statement.kind = .adequate →
      (s.process statement).1.symbols = s.symbols) ∧
    (∀ space names, (s.process statement).2.outcome = .ok (.declared space names) →
      names.Nodup ∧ (∀ n ∈ names, s.symbols.contains space n = false) ∧
        s.symbols.Adds statement space names (s.process statement).1.symbols) ∧
    ∀ source e, (s.readText source).answer = .error e →
      (s.readText source).session = s ∧ (s.readText source).events = [] := by
  have heffect : Symbols.Effect s.config s.symbols statement (s.process statement).2.outcome
      (s.process statement).1.symbols := Symbols.execute_effect rfl
  refine ⟨fun f hf => ?_, fun hkind => ?_, fun space names hdeclared => ?_, fun source e he => ?_⟩
  · rcases heffect with ⟨h, -⟩ | ⟨_, _, hdeclared, -, -⟩
    · exact h
    · rw [hf] at hdeclared; cases hdeclared
  · rcases heffect with ⟨h, -⟩ | ⟨_, _, -, hadm, -⟩
    · exact h
    · -- The tables admit no question.
      cases statement <;> simp [Statement.kind, Symbols.Admits] at hkind hadm
  · rcases heffect with ⟨-, h⟩ | ⟨_, _, h, hadm, hadd⟩
    · exact absurd hdeclared (h space names)
    · rw [hdeclared] at h
      cases h
      obtain ⟨hnodup, hfresh⟩ := hadm.names_fresh hadd
      exact ⟨hnodup, hfresh, hadd⟩
  · -- A text that is no program never comes to the tables.
    rw [readText] at he ⊢
    split at he
    · exact ⟨rfl, rfl⟩
    · cases he

/-- Of a list with a new variable and one that is declared the new one is not declared either; two
new ones are added in their order. -/
theorem sample_atomic :
    (sampleSession.process (.defineVariables ["r", "p"])).1.symbols = sampleSession.symbols ∧
      sampleSession.symbols.Adds (.defineVariables ["r", "t"]) .vars ["r", "t"]
        (sampleSession.process (.defineVariables ["r", "t"])).1.symbols :=
  ⟨(process_atomic sampleSession (.defineVariables ["r", "p"])).1 (.duplicate .vars "p")
      (by decide +kernel),
    ((process_atomic sampleSession (.defineVariables ["r", "t"])).2.2.1 .vars ["r", "t"]
      (by decide +kernel)).2.2⟩

end Session

end PropBench
