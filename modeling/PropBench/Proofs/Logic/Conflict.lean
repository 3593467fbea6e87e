import PropBench.Proofs.Logic.TruthTable

/-!
# Proofs — Logic — Conflict

When the order of a table's entries matters.  The first entry to match an input gives the value, so
two entries have an order to keep if they match an input in common and give it different values.

* `Entry.Conflicts`, and `Entry.conflicts_iff`, a test of it that compares the entries cell by cell.
* `TruthTable.FirstMatch`: the position of the entry that gives the value.
* `TruthTable.Rearranges`: the same entries in another order, which is that of the first table for
  entries that conflict.
* `TruthTable.order_of_conflicts`: such a table has the same values, and two neighbours that
  conflict can be swapped only where earlier entries hide it.
-/

namespace PropBench

/-! ### Inputs in common -/

/-- Some truth value agrees with both cells. -/
def Cell.meets : Cell → Cell → Bool
  | .value b, .value c => b == c
  | _, _ => true

theorem Cell.meets_iff {c d : Cell} :
    c.meets d = true ↔ ∃ b, c.agrees b = true ∧ d.agrees b = true := by
  cases c with
  | value b =>
      cases d with
      | value c => simpa [meets, agrees] using eq_comm
      | blank => simp [meets, agrees]
  | blank => cases d <;> simp [meets, agrees]

namespace Entry

/-- Some input agrees with both lists of cells. -/
def meet : List Cell → List Cell → Bool
  | [], [] => true
  | c :: cs, d :: ds => c.meets d && meet cs ds
  | _, _ => false

/-- Two patterns meet if there is an input that both agree with. -/
theorem meet_iff {cs ds : List Cell} :
    meet cs ds = true ↔ ∃ input, agree cs input = true ∧ agree ds input = true := by
  induction cs generalizing ds with
  | nil =>
      cases ds with
      | nil => exact iff_of_true rfl ⟨[], rfl, rfl⟩
      | cons d ds =>
          refine iff_of_false (by simp [meet]) ?_
          -- No input has the length of both patterns.
          rintro ⟨_ | ⟨b, input⟩, hcs, hds⟩
          · cases hds
          · cases hcs
  | cons c cs ih =>
      cases ds with
      | nil =>
          refine iff_of_false (by simp [meet]) ?_
          rintro ⟨_ | ⟨b, input⟩, hcs, hds⟩
          · cases hcs
          · cases hds
      | cons d ds =>
          rw [meet, Bool.and_eq_true, Cell.meets_iff, ih]
          constructor
          · rintro ⟨⟨b, hc, hd⟩, input, hcs, hds⟩
            exact ⟨b :: input, by simp [agree, hc, hcs], by simp [agree, hd, hds]⟩
          · rintro ⟨_ | ⟨b, input⟩, hcs, hds⟩
            · cases hcs
            · simp only [agree, Bool.and_eq_true] at hcs hds
              exact ⟨⟨b, hcs.1, hds.1⟩, input, hcs.2, hds.2⟩

/-- Some input agrees with a list of cells. -/
theorem exists_agree (cs : List Cell) : ∃ input, agree cs input = true := by
  have hself : meet cs cs = true := by
    induction cs with
    | nil => rfl
    | cons c cs ih => cases c <;> simp [meet, Cell.meets, ih]
  obtain ⟨input, h, -⟩ := meet_iff.mp hself
  exact ⟨input, h⟩

/-- Some input is matched by both entries. -/
def meets : Entry → Entry → Bool
  | .pattern cs _, .pattern ds _ => meet cs ds
  | _, _ => true

/-- Two entries meet if there is an input that both match. -/
theorem meets_iff {e f : Entry} :
    e.meets f = true ↔ ∃ input, e.isMatch input = true ∧ f.isMatch input = true := by
  cases e with
  | pattern cs b =>
      cases f with
      | pattern ds c => exact meet_iff
      | otherwise c =>
          obtain ⟨input, h⟩ := exists_agree cs
          exact iff_of_true rfl ⟨input, h, rfl⟩
  | otherwise b =>
      cases f with
      | pattern ds c =>
          obtain ⟨input, h⟩ := exists_agree ds
          exact iff_of_true rfl ⟨input, rfl, h⟩
      | otherwise c => exact iff_of_true rfl ⟨[], rfl, rfl⟩

/-- Two entries have different values, and some input is matched by both. -/
def Conflicts (e f : Entry) : Prop :=
  e.value ≠ f.value ∧ ∃ input, e.isMatch input = true ∧ f.isMatch input = true

theorem conflicts_iff {e f : Entry} : e.Conflicts f ↔ e.value ≠ f.value ∧ e.meets f = true := by
  rw [Conflicts, meets_iff]

instance (e f : Entry) : Decidable (e.Conflicts f) := decidable_of_iff _ conflicts_iff.symm

end Entry

namespace TruthTable

variable {t u : TruthTable} {input : List Bool} {e f : Entry} {before after : List Entry}

/-! ### The entry that gives the value -/

/-- The first entry decides, if it matches. -/
theorem value?_cons (e : Entry) (es : List Entry) (input : List Bool) :
    value? ⟨e :: es⟩ input = if e.isMatch input then some e.value else value? ⟨es⟩ input := by
  rw [value?_eq_find?, value?_eq_find?, List.find?_cons]
  cases e.isMatch input <;> rfl

/-- Entries behind others decide where those leave it open. -/
theorem value?_append (es fs : List Entry) (input : List Bool) :
    value? ⟨es ++ fs⟩ input = (value? ⟨es⟩ input).or (value? ⟨fs⟩ input) := by
  rw [value?_eq_find?, value?_eq_find?, value?_eq_find?, List.find?_append, Option.map_or]

/-- An entry matches an input, and no earlier one does. -/
structure FirstMatch (t : TruthTable) (input : List Bool) (i : Fin t.entries.length) : Prop where
  isMatch : t.entries[i].isMatch input = true
  earlier : ∀ j < i, t.entries[j].isMatch input = false

/-- The first entry to match gives the value. -/
theorem FirstMatch.value? {i : Fin t.entries.length} (h : t.FirstMatch input i) :
    t.value? input = some t.entries[i].value := by
  rw [value?_eq_find?]
  refine congrArg (Option.map Entry.value) (List.find?_eq_some_iff_getElem.mpr
    ⟨h.isMatch, i, i.isLt, rfl, fun j hj => ?_⟩)
  have hearlier := h.earlier ⟨j, hj.trans i.isLt⟩ hj
  simpa using hearlier

/-- If any entry matches, there is a first one. -/
theorem exists_firstMatch (h : ∃ e ∈ t.entries, e.isMatch input = true) :
    ∃ i, t.FirstMatch input i := by
  obtain ⟨e, he, hmatch⟩ := h
  obtain ⟨i, rfl⟩ := List.mem_iff_get.mp he
  induction i using WellFoundedLT.induction with
  | ind i ih =>
      by_cases hearlier : ∃ j < i, t.entries[j].isMatch input = true
      · obtain ⟨j, hj, hmatch⟩ := hearlier
        exact ih j hj (List.get_mem _ _) hmatch
      · exact ⟨i, hmatch, fun j hj => Bool.eq_false_iff.mpr fun hmatch => hearlier ⟨j, hj, hmatch⟩⟩

/-! ### Entries in another order -/

/-- A table has the entries of another in some order, which is the same for each two that
conflict. -/
def Rearranges (u t : TruthTable) : Prop :=
  ∃ place : Fin u.entries.length ≃ Fin t.entries.length,
    (∀ i, t.entries[place i] = u.entries[i]) ∧
      ∀ i j, u.entries[i].Conflicts u.entries[j] → (i < j ↔ place i < place j)

/-- Entries in another order are the same entries. -/
theorem Rearranges.mem_iff (h : u.Rearranges t) : e ∈ u.entries ↔ e ∈ t.entries := by
  obtain ⟨place, hentry, -⟩ := h
  rw [List.mem_iff_get, List.mem_iff_get]
  constructor
  · rintro ⟨i, rfl⟩
    exact ⟨place i, hentry i⟩
  · rintro ⟨i, rfl⟩
    exact ⟨place.symm i, by simpa using (hentry (place.symm i)).symm⟩

/-- **A rearranged table has the same values.** -/
theorem Rearranges.value?_eq (h : u.Rearranges t) (input : List Bool) :
    u.value? input = t.value? input := by
  have hmem : (∃ e ∈ u.entries, e.isMatch input = true) ↔ ∃ e ∈ t.entries, e.isMatch input = true :=
    exists_congr fun e => and_congr_left fun _ => h.mem_iff
  by_cases hmatch : ∃ e ∈ u.entries, e.isMatch input = true
  · obtain ⟨i, hi⟩ := exists_firstMatch hmatch
    obtain ⟨k, hk⟩ := exists_firstMatch (hmem.mp hmatch)
    obtain ⟨place, hentry, horder⟩ := h
    obtain ⟨j, rfl⟩ := place.surjective k
    have hj : u.entries[j].isMatch input = true := by
      rw [← hentry j]
      exact hk.isMatch
    -- With different values the two would conflict, and `i` stand in front of `j` in both tables.
    have hvalue : u.entries[i].value = u.entries[j].value := by
      by_contra hne
      have hij : i < j := by
        refine lt_of_le_of_ne (le_of_not_gt fun hlt => ?_) fun heq => hne (by rw [heq])
        rw [hi.earlier j hlt] at hj
        cases hj
      have hearlier := hk.earlier (place i) ((horder i j ⟨hne, input, hi.isMatch, hj⟩).mp hij)
      rw [hentry i, hi.isMatch] at hearlier
      cases hearlier
    rw [hi.value?, hk.value?, hvalue, hentry j]
  · rw [value?_eq_none_iff.mpr hmatch, value?_eq_none_iff.mpr (mt hmem.mpr hmatch)]

/-! ### Neighbours -/

/-- The values at an input that an earlier entry matches do not depend on what follows. -/
theorem value?_append_of_match (h : ∃ g ∈ before, g.isMatch input = true) (es : List Entry) :
    value? ⟨before ++ es⟩ input = value? ⟨before⟩ input := by
  obtain ⟨b, hb⟩ := Option.isSome_iff_exists.mp (isSome_value?_iff.mpr h)
  rw [value?_append, hb, Option.some_or]

theorem value?_append_of_not_match (h : ¬ ∃ g ∈ before, g.isMatch input = true) (es : List Entry) :
    value? ⟨before ++ es⟩ input = value? ⟨es⟩ input := by
  rw [value?_append, value?_eq_none_iff.mpr h, Option.none_or]

/-- Two neighbours can be swapped where they do not both match, and where an earlier entry does. -/
theorem value?_swap (h : e.isMatch input = true → f.isMatch input = true →
      ∃ g ∈ before, g.isMatch input = true) (after : List Entry) :
    value? ⟨before ++ f :: e :: after⟩ input = value? ⟨before ++ e :: f :: after⟩ input := by
  by_cases hbefore : ∃ g ∈ before, g.isMatch input = true
  · rw [value?_append_of_match hbefore, value?_append_of_match hbefore]
  · simp only [value?_append_of_not_match hbefore, value?_cons]
    cases he : e.isMatch input with
    | false => rfl
    | true =>
        have hf : f.isMatch input = false := Bool.eq_false_iff.mpr fun hf => hbefore (h he hf)
        rw [hf]
        rfl

/-- Two neighbours that conflict decide what both of them match, unless an earlier entry does. -/
theorem match_of_swap (h : e.Conflicts f)
    (hswap : value? ⟨before ++ f :: e :: after⟩ input = value? ⟨before ++ e :: f :: after⟩ input)
    (he : e.isMatch input = true) (hf : f.isMatch input = true) :
    ∃ g ∈ before, g.isMatch input = true := by
  by_contra hbefore
  simp only [value?_append_of_not_match hbefore, value?_cons, if_pos he, if_pos hf] at hswap
  exact h.1 (Option.some.inj hswap).symm

/-- **Only the order of entries that conflict matters.**  A table with the same entries in an order
that keeps the place of each before those it conflicts with has the same value at every input, or
none.  Neighbours that conflict can be swapped with no effect exactly if an earlier entry matches
every input that both of them match. -/
theorem order_of_conflicts :
    (∀ t u : TruthTable, u.Rearranges t → ∀ input, u.value? input = t.value? input) ∧
    ∀ (before : List Entry) (e f : Entry) (after : List Entry), e.Conflicts f →
      ((∀ input, value? ⟨before ++ f :: e :: after⟩ input =
          value? ⟨before ++ e :: f :: after⟩ input) ↔
        ∀ input, e.isMatch input = true → f.isMatch input = true →
          ∃ g ∈ before, g.isMatch input = true) := by
  refine ⟨fun t u h => h.value?_eq, fun before e f after h => ⟨fun hswap input => ?_,
    fun hhidden input => ?_⟩⟩
  · exact match_of_swap h (hswap input)
  · exact value?_swap (hhidden input) after

/-- The pattern `(1, _)` with value 0 has to stay in front of the otherwise entry with value 1; the
pattern `(0, _)`, which overlaps the otherwise entry and has its value, can stand anywhere.  The
patterns `(1, _)` and `(_, 1)` with different values can be swapped behind `(1, 1)`, and not at the
front. -/
theorem sample_order :
    (∀ input,
      value? ⟨[.pattern [.value true, .blank] false, .otherwise true,
        .pattern [.value false, .blank] true]⟩ input =
      value? ⟨[.pattern [.value false, .blank] true, .pattern [.value true, .blank] false,
        .otherwise true]⟩ input) ∧
    (∀ input,
      value? ⟨[.pattern [.value true, .value true] false, .pattern [.blank, .value true] true,
        .pattern [.value true, .blank] false]⟩ input =
      value? ⟨[.pattern [.value true, .value true] false, .pattern [.value true, .blank] false,
        .pattern [.blank, .value true] true]⟩ input) ∧
    ¬ ∀ input,
      value? ⟨[.pattern [.blank, .value true] true, .pattern [.value true, .blank] false]⟩ input =
      value? ⟨[.pattern [.value true, .blank] false, .pattern [.blank, .value true] true]⟩
        input := by
  obtain ⟨hrearranged, hneighbours⟩ := order_of_conflicts
  have hconflict : Entry.Conflicts (.pattern [.value true, .blank] false)
      (.pattern [.blank, .value true] true) := by decide
  refine ⟨hrearranged _ _ ⟨finRotate 3, by decide, by decide⟩, ?_, fun hswap => ?_⟩
  · refine (hneighbours [.pattern [.value true, .value true] false] _ _ [] hconflict).mpr ?_
    rintro (_ | ⟨a, _ | ⟨b, _ | _⟩⟩) he hf
    all_goals simp_all [Entry.isMatch, Entry.agree, Cell.agrees]
  · obtain ⟨g, hg, -⟩ := (hneighbours [] _ _ [] hconflict).mp hswap [true, true] rfl rfl
    cases hg

end TruthTable

end PropBench
