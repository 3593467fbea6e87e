import PropBench.Symbols.Fault

/-!
# Symbols — Table

The names declared in one namespace with their definitions, in the order of declaration.  A table
only grows: a declaration adds an entry at the end, and no entry is changed or removed.

* `Table.declare` adds a definition, under a name that has none, and gives the key of the new
  entry; keys count up from zero.
* `Table.resolve` finds the definition of a name, `Table.get?` that of a key.
* `Table.find?_of_declare`: a declaration gives its name a meaning and leaves all other names as
  they are.
-/

namespace PropBench

/-- The definitions of a namespace. -/
structure Table (space : Namespace) (α : Type) where
  entries : List (String × α) := []
  deriving DecidableEq, Repr, Inhabited

namespace Table

variable {space : Namespace} {α : Type}

/-- The definition of a name, if it has one. -/
def find? (t : Table space α) (name : String) : Option α :=
  (t.entries.find? fun e => e.1 == name).map (·.2)

/-- Whether a name is declared. -/
def contains (t : Table space α) (name : String) : Bool := (t.find? name).isSome

/-- The definition of a name. -/
def resolve (t : Table space α) (name : String) : Except Fault α :=
  match t.find? name with
  | some a => .ok a
  | none => .error (.unknown space name)

/-- The definition with a key. -/
def get? (t : Table space α) (key : Nat) : Option α := t.entries[key]?.map (·.2)

/-- The number of definitions, so also the key that the next one gets. -/
def size (t : Table space α) : Nat := t.entries.length

/-- Whether nothing is declared. -/
def isEmpty (t : Table space α) : Bool := t.entries.isEmpty

/-- The declared names, in order. -/
def names (t : Table space α) : List String := t.entries.map (·.1)

/-- Adds a definition of a name that has none; gives the key of the entry and the new table. -/
def declare (t : Table space α) (name : String) (a : α) : Except Fault (Nat × Table space α) :=
  if t.contains name then
    .error (.duplicate space name)
  else
    .ok (t.size, ⟨t.entries ++ [(name, a)]⟩)

theorem contains_iff {t : Table space α} {name : String} :
    t.contains name = true ↔ name ∈ t.names := by
  simp [contains, find?, names]

theorem declare_eq_ok_iff {t u : Table space α} {name : String} {a : α} {key : Nat} :
    t.declare name a = .ok (key, u) ↔
      t.contains name = false ∧ key = t.size ∧ u.entries = t.entries ++ [(name, a)] := by
  unfold declare
  split
  · simp_all
  · next h =>
    cases u
    simp [h, eq_comm]

theorem declare_eq_error_iff {t : Table space α} {name : String} {a : α} {f : Fault} :
    t.declare name a = .error f ↔ t.contains name = true ∧ f = .duplicate space name := by
  unfold declare
  split
  · next h => simp [h, eq_comm]
  · next h => simp [h]

theorem find?_of_declare {t u : Table space α} {name : String} {a : α} {key : Nat}
    (h : t.declare name a = .ok (key, u)) (n : String) :
    u.find? n = if n = name then some a else t.find? n := by
  obtain ⟨hn, -, hu⟩ := declare_eq_ok_iff.1 h
  by_cases e : n = name
  · subst e
    have hnone : t.entries.find? (fun e => e.1 == n) = none := by
      simpa [contains, find?] using hn
    rw [find?, hu, List.find?_append, hnone]
    simp
  · simp [find?, hu, List.find?_append, e, Ne.symm e]

end Table

end PropBench
