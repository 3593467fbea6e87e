import PropBench.Grammar.Trace
import PropBench.Proofs.Grammar.Statement

/-!
# Proofs — Grammar — Trace

What readers come across is in the lexemes that they read from, and all that they take is come
across.

* `Sighting.Of ls`: the sighting is of a place among the lexemes `ls`.
* `Covers xs ls rest`: the sightings `xs` show each lexeme from `ls` up to `rest`, and the gap in
  front of it.
* `Traced.Faithful`: what a reader comes across is of the lexemes it reads from, and covers what
  it takes.  One lemma for each way to make a reader; `faithful_chain` is by induction on the
  nesting.
* `program_fst`: tracing changes nothing about what is read.
* `of_mem_program`, `covers_program`: the sightings of a program, whether it is read to its end or
  not, and of one that is.
-/

namespace PropBench

/-! ### Sightings of some lexemes -/

/-- The sighting is of a place among the lexemes, and a lexeme is the one that stands there. -/
inductive Sighting.Of (ls : List Lexeme) : Sighting → Prop
  | gap {left : List Lexeme} (h : left <:+ ls) : Of ls (.gap left)
  | lexeme {l : Lexeme} {left : List Lexeme} (h : l :: left <:+ ls) : Of ls (.lexeme (l :: left) l)

/-- What is seen at the end of the lexemes is seen among them. -/
theorem Sighting.Of.mono {ls ms : List Lexeme} {x : Sighting} (h : x.Of ms) (hms : ms <:+ ls) :
    x.Of ls := by
  cases h with
  | gap h => exact .gap (h.trans hms)
  | lexeme h => exact .lexeme (h.trans hms)

/-- The sightings show the lexemes from a place up to another, each with the gap in front of it. -/
inductive Covers (xs : List Sighting) : List Lexeme → List Lexeme → Prop
  | refl (ls : List Lexeme) : Covers xs ls ls
  | step {l : Lexeme} {ls rest : List Lexeme} (hgap : .gap (l :: ls) ∈ xs)
      (hlexeme : .lexeme (l :: ls) l ∈ xs) (h : Covers xs ls rest) : Covers xs (l :: ls) rest

namespace Covers

variable {xs ys : List Sighting} {ls ms rest : List Lexeme}

theorem suffix (h : Covers xs ls rest) : rest <:+ ls := by
  induction h with
  | refl => exact List.suffix_rfl
  | step _ _ _ ih => exact ih.trans (List.suffix_cons _ _)

theorem trans (h₁ : Covers xs ls ms) (h₂ : Covers xs ms rest) : Covers xs ls rest := by
  induction h₁ with
  | refl => exact h₂
  | step hgap hlexeme _ ih => exact .step hgap hlexeme (ih h₂)

theorem mono (h : Covers xs ls rest) (hxs : xs ⊆ ys) : Covers ys ls rest := by
  induction h with
  | refl => exact .refl _
  | step hgap hlexeme _ ih => exact .step (hxs hgap) (hxs hlexeme) ih

/-- Sightings one after the other cover what they cover one after the other. -/
theorem append (h₁ : Covers xs ls ms) (h₂ : Covers ys ms rest) : Covers (xs ++ ys) ls rest :=
  (h₁.mono (List.subset_append_left _ _)).trans (h₂.mono (List.subset_append_right _ _))

/-- What is covered, place by place. -/
theorem mem (h : Covers xs ls rest) {l : Lexeme} {left : List Lexeme} (hl : l :: left <:+ ls)
    (hrest : rest <:+ left) : .gap (l :: left) ∈ xs ∧ .lexeme (l :: left) l ∈ xs := by
  induction h with
  | refl =>
      have := hl.length_le.trans hrest.length_le
      simp at this
  | step hgap hlexeme _ ih =>
      rcases List.suffix_cons_iff.mp hl with e | hl
      · cases e; exact ⟨hgap, hlexeme⟩
      · exact ih hl hrest

/-- All gaps are shown where all lexemes are, and the gap behind the last of them. -/
theorem gap_mem (h : Covers xs ls []) (hend : .gap [] ∈ xs) {left : List Lexeme}
    (hleft : left <:+ ls) : .gap left ∈ xs := by
  cases left with
  | nil => exact hend
  | cons l left => exact (h.mem hleft List.nil_suffix).1

end Covers

/-! ### Looks -/

/-- What is found is what is looked at. -/
def Look.Honest (look : Look) : Prop := ∀ ⦃l m⦄, look l = some m → m = l

namespace Look

@[simp] theorem honest_symbol (s : Symbol) : Honest (symbol s) := by
  intro l m h
  unfold symbol at h
  split at h
  · next hl => cases h; exact hl.symm
  · cases h

@[simp] theorem honest_keyword (ks : List Keyword) : Honest (keyword ks) := by
  intro l m h
  unfold keyword at h
  split at h
  · next k' =>
      obtain ⟨k, hk, rfl⟩ := Option.map_eq_some_iff.mp h
      have : k = k' := by simpa using List.find?_some hk
      rw [this]
  · cases h

@[simp] theorem honest_name : Honest name := by
  intro l m h
  cases l <;> cases h
  rfl

@[simp] theorem honest_wildcard : Honest wildcard := by
  intro l m h
  cases l <;> cases h
  rfl

end Look

/-- A look passes the gap first, and ends the row if it finds something. -/
theorem sightingsOf_cons (look : Look) (looks : List Look) (ls : List Lexeme) :
    sightingsOf (look :: looks) ls = .gap ls ::
      match ls.head?.bind look with
      | some l => [.lexeme ls l]
      | none => sightingsOf looks ls := rfl

/-- Looks show what stands there. -/
theorem of_mem_sightingsOf {looks : List Look} (h : ∀ look ∈ looks, look.Honest)
    {ls : List Lexeme} {x : Sighting} (hx : x ∈ sightingsOf looks ls) : x.Of ls := by
  induction looks with
  | nil => cases hx
  | cons look looks ih =>
      obtain ⟨hlook, hlooks⟩ := List.forall_mem_cons.mp h
      rw [sightingsOf_cons] at hx
      rcases List.mem_cons.mp hx with rfl | hx
      · exact .gap List.suffix_rfl
      · split at hx
        · next l hl =>
            obtain ⟨m, hm, hl⟩ := Option.bind_eq_some_iff.mp hl
            obtain ⟨ms, rfl⟩ := List.head?_eq_some_iff.mp hm
            obtain rfl := hlook hl
            obtain rfl := List.mem_singleton.mp hx
            exact .lexeme List.suffix_rfl
        · exact ih hlooks hx

/-- Looks that find the first lexeme show it. -/
theorem covers_sightingsOf {looks : List Look} (h : ∀ look ∈ looks, look.Honest) {l : Lexeme}
    (hfind : ∃ look ∈ looks, (look l).isSome) (ls : List Lexeme) :
    Covers (sightingsOf looks (l :: ls)) (l :: ls) ls := by
  refine .step ?_ ?_ (.refl _)
  · obtain ⟨look, hlook, -⟩ := hfind
    obtain ⟨_, _, rfl⟩ := List.exists_cons_of_ne_nil (List.ne_nil_of_mem hlook)
    exact List.mem_cons_self
  · induction looks with
    | nil => simp at hfind
    | cons look looks ih =>
        obtain ⟨hlook, hlooks⟩ := List.forall_mem_cons.mp h
        rw [sightingsOf_cons]
        refine List.mem_cons_of_mem _ ?_
        split
        · next m hm => rw [hlook hm]; exact List.mem_singleton_self _
        · next hnone =>
            have hno : look l = none := hnone
            exact ih hlooks (by simpa [hno] using hfind)

theorem covers_symbol (s : Symbol) (ls : List Lexeme) :
    Covers (sightingsOf [.symbol s] (.symbol s :: ls)) (.symbol s :: ls) ls :=
  covers_sightingsOf (by simp) (by simp [Look.symbol]) ls

namespace Traced

variable {α β : Type}

/-! ### Faithful readers -/

/-- The reader comes across nothing but what is in the lexemes it reads from, and across all that
it takes. -/
structure Faithful (r : Traced α) : Prop where
  within : ∀ {ls x}, x ∈ r.sightings ls → x.Of ls
  covers : ∀ {ls a rest}, r.reader.Gives ls a rest → Covers (r.sightings ls) ls rest

theorem mem_behind {ls : List Lexeme} {r : Except Refusal (Taken α ls)}
    {f : Taken α ls → List Sighting} {x : Sighting} :
    x ∈ behind r f ↔ ∃ t, r = .ok t ∧ x ∈ f t := by
  cases r <;> simp [behind]

theorem Faithful.suffix {r : Traced α} (h : r.Faithful) {ls : List Lexeme} {t : Taken α ls}
    (ht : r.reader ls = .ok t) : t.rest <:+ ls :=
  (h.covers ⟨t, ht, rfl, rfl⟩).suffix

/-- What is come across behind a value is of the lexemes in front of it too. -/
theorem Faithful.of_mem_behind {r : Traced α} (h : r.Faithful) {ls : List Lexeme}
    {f : Taken α ls → List Sighting} (hf : ∀ {t x}, x ∈ f t → x.Of t.rest) {x : Sighting}
    (hx : x ∈ behind (r.reader ls) f) : x.Of ls := by
  obtain ⟨t, ht, hx⟩ := mem_behind.mp hx
  exact (hf hx).mono (h.suffix ht)

theorem Faithful.map {r : Traced α} (h : r.Faithful) (f : α → β) : (f <$> r).Faithful where
  within := h.within
  covers hg := by
    obtain ⟨a, ha, -⟩ := Reader.gives_map.mp hg
    exact h.covers ha

/-- Readers one after the other are faithful if each of the two is. -/
theorem Faithful.bind {r : Traced α} {f : α → Traced β} (h : r.Faithful)
    (hf : ∀ a, (f a).Faithful) : (r >>= f).Faithful where
  within {ls x} hx := by
    rcases List.mem_append.mp hx with hx | hx
    · exact h.within hx
    · exact h.of_mem_behind (fun hx => (hf _).within hx) hx
  covers {ls b rest} hg := by
    obtain ⟨_, _, ⟨t, ht, rfl, rfl⟩, hb⟩ := Reader.gives_bind.mp hg
    refine (h.covers ⟨t, ht, rfl, rfl⟩).append (((hf _).covers hb).mono fun x hx => ?_)
    exact mem_behind.mpr ⟨t, ht, hx⟩

theorem Faithful.followedBy {r : Traced α} {s : Traced β} (hr : r.Faithful) (hs : s.Faithful) :
    (followedBy r s).Faithful :=
  hr.bind fun _ => hs.map _

/-- A reader that takes what its looks find. -/
theorem faithful_of_looks {r : Reader α} {looks : List Look} (h : ∀ look ∈ looks, look.Honest)
    (hr : ∀ {ls a rest}, r.Gives ls a rest →
      ∃ l, ls = l :: rest ∧ ∃ look ∈ looks, (look l).isSome) :
    Faithful ⟨r, sightingsOf looks⟩ where
  within := of_mem_sightingsOf h
  covers hg := by
    obtain ⟨l, rfl, hfind⟩ := hr hg
    exact covers_sightingsOf h hfind _

/-- A lexeme is shown as it is taken, if one of the looks finds it. -/
theorem faithful_accept {what : Expectation} {f : Lexeme → Option α} {looks : List Look}
    (h : ∀ look ∈ looks, look.Honest)
    (hf : ∀ {l a}, f l = some a → ∃ look ∈ looks, (look l).isSome) :
    (accept what f looks).Faithful :=
  faithful_of_looks h fun hg => by
    obtain ⟨l, rfl, hl⟩ := Reader.gives_accept.mp hg
    exact ⟨l, rfl, hf hl⟩

theorem faithful_symbol (s : Symbol) (what : Expectation) : (symbol s what).Faithful :=
  faithful_of_looks (by simp) fun hg => ⟨_, Reader.gives_symbol.mp hg, by simp [Look.symbol]⟩

theorem faithful_keyword (k : Keyword) (what : Expectation) : (keyword k what).Faithful :=
  faithful_of_looks (by simp) fun hg => ⟨_, Reader.gives_keyword.mp hg, by simp [Look.keyword]⟩

theorem faithful_name (what : Expectation) : (name what).Faithful :=
  faithful_of_looks (by simp) fun hg => ⟨_, Reader.gives_name.mp hg, by simp [Look.name]⟩

/-! ### Lists -/

/-- A list shows its items, and the commas looked for behind them. -/
theorem mem_sightingsOfSeparated {item : Traced α} {ls : List Lexeme} {x : Sighting} :
    x ∈ sightingsOfSeparated item ls ↔ x ∈ item.sightings ls ∨
      ∃ a rest, item.reader.Gives ls a rest ∧ (x ∈ sightingsOf [.symbol .comma] rest ∨
        ∃ ms, rest = .symbol .comma :: ms ∧ x ∈ sightingsOfSeparated item ms) := by
  rw [sightingsOfSeparated, List.mem_append]
  refine or_congr_right ?_
  constructor
  · intro hx
    split at hx
    · cases hx
    · next a rest _ ht =>
        refine ⟨a, rest, ⟨_, ht, rfl, rfl⟩, (List.mem_append.mp hx).imp_right fun hx => ?_⟩
        split at hx
        · exact ⟨_, rfl, hx⟩
        · cases hx
  · rintro ⟨_, _, ⟨t, ht, rfl, rfl⟩, hx⟩
    rw [ht]
    refine List.mem_append.mpr (hx.imp_right ?_)
    obtain ⟨a, rest, hs⟩ := t
    rintro ⟨ms, rfl, hms⟩
    exact hms

/-- A list is shown from its first item to its last. -/
theorem Faithful.separated {item : Traced α} (h : item.Faithful) :
    (separated item).Faithful where
  within {ls x} hx := by
    -- On the length: the values behind a comma are in what the first one leaves.
    induction hn : ls.length using Nat.strong_induction_on generalizing ls with
    | _ n ih =>
        rcases mem_sightingsOfSeparated.mp hx with hx | ⟨a, rest, ha, hx⟩
        · exact h.within hx
        · refine Sighting.Of.mono ?_ (h.covers ha).suffix
          rcases hx with hx | ⟨ms, rfl, hx⟩
          · exact of_mem_sightingsOf (by simp) hx
          · have hlt := ha.shorter
            simp only [List.length_cons] at hlt
            exact (ih _ (by omega) hx rfl).mono (List.suffix_cons _ _)
  covers {ls as rest} hg := by
    induction hn : ls.length using Nat.strong_induction_on generalizing ls as with
    | _ n ih =>
        rcases Reader.gives_separated.mp hg with ⟨a, ms, bs, ha, hbs, -⟩ | ⟨a, ha, -, -⟩
        · have hlt := ha.shorter
          simp only [List.length_cons] at hlt
          have hsub : sightingsOf [.symbol .comma] (.symbol .comma :: ms) ++
              sightingsOfSeparated item ms ⊆ sightingsOfSeparated item ls := fun x hx =>
            mem_sightingsOfSeparated.mpr (.inr ⟨a, _, ha,
              (List.mem_append.mp hx).imp_right fun hx => ⟨ms, rfl, hx⟩⟩)
          exact ((h.covers ha).mono fun x hx => mem_sightingsOfSeparated.mpr (.inl hx)).trans
            (((covers_symbol .comma ms).append (ih _ (by omega) hbs rfl)).mono hsub)
        · exact (h.covers ha).mono fun x hx => mem_sightingsOfSeparated.mpr (.inl hx)

/-- A closed list is shown up to its closing symbol. -/
theorem Faithful.closed {item : Traced α} (h : item.Faithful) (close : Symbol)
    (what : Expectation) : (closed item close what).Faithful where
  within {ls x} hx := by
    rcases List.mem_append.mp hx with hx | hx
    · exact of_mem_sightingsOf (by simp) hx
    · split at hx
      · cases hx
      · exact (h.separated.followedBy (faithful_symbol close what)).within hx
  covers {ls as rest} hg := by
    rcases Reader.gives_closed.mp hg with ⟨rfl, -⟩ | ⟨hne, hg⟩
    · exact (covers_symbol close rest).mono (List.subset_append_left _ _)
    · have hhead : ls.head? ≠ some (.symbol close) := fun e => by
        obtain ⟨ms, rfl⟩ := List.head?_eq_some_iff.mp e
        exact hne ms rfl
      have hlist := (h.separated.followedBy (faithful_symbol close what)).covers
        (Reader.gives_followedBy.mpr ⟨_, (), hg, Reader.gives_symbol.mpr rfl⟩)
      refine hlist.mono fun x hx => List.mem_append_right _ ?_
      rw [if_neg hhead]
      exact hx

theorem Faithful.braced {item : Traced α} (h : item.Faithful) : (braced item).Faithful :=
  (faithful_symbol _ _).bind fun _ => h.closed _ _

theorem Faithful.parenthesized {item : Traced α} (h : item.Faithful) (what : Expectation) :
    (parenthesized what item).Faithful :=
  (faithful_symbol _ _).bind fun _ => h.closed _ _

/-! ### Expressions -/

section Expression

variable {limit : Nat} {operand : Traced Operand}

/-- Links show the connectives looked for, and the operands behind those found. -/
theorem mem_sightingsOfLinks {ls : List Lexeme} {x : Sighting} :
    x ∈ sightingsOfLinks operand ls ↔ x ∈ sightingsOf Look.connective ls ∨
      ∃ l ms, ls = l :: ms ∧ l.binary?.isSome ∧ (x ∈ operand.sightings ms ∨
        ∃ o rest, operand.reader.Gives ms o rest ∧ x ∈ sightingsOfLinks operand rest) := by
  -- The definition is opened once: what it comes across depends on the connective alone.
  rw [sightingsOfLinks.eq_def, List.mem_append]
  refine or_congr_right ?_
  cases ls with
  | nil => simp
  | cons l ms =>
      by_cases hl : l.binary?.isSome
      · simp only [if_pos hl, List.mem_append, List.cons.injEq]
        constructor
        · intro hx
          refine ⟨l, ms, ⟨rfl, rfl⟩, hl, hx.imp_right fun hx => ?_⟩
          split at hx
          · cases hx
          · next t ht => exact ⟨_, _, ⟨t, ht, rfl, rfl⟩, hx⟩
        · rintro ⟨_, _, ⟨rfl, rfl⟩, -, hx⟩
          refine hx.imp_right ?_
          rintro ⟨_, _, ⟨t, ht, rfl, rfl⟩, hx⟩
          rw [ht]
          exact hx
      · simp only [if_neg hl, List.not_mem_nil, false_iff]
        rintro ⟨_, _, e, hb, -⟩
        cases e
        exact hl hb

theorem honest_connective : ∀ look ∈ Look.connective, look.Honest := by
  simp [Look.connective]

theorem exists_connective {l : Lexeme} {c : Binary} (h : l.binary? = some c) :
    ∃ look ∈ Look.connective, (look l).isSome := by
  cases Lexeme.binary?_eq_some.mp h <;> decide

theorem honest_negation : ∀ look ∈ Look.negation, look.Honest := by
  simp [Look.negation]

theorem exists_negation {l : Lexeme} (h : l.isNegation = true) :
    ∃ look ∈ Look.negation, (look l).isSome := by
  cases Lexeme.isNegation_iff.mp h <;> decide

/-- Links show what stands there. -/
theorem Faithful.of_mem_links (h : operand.Faithful) {ls : List Lexeme} {x : Sighting}
    (hx : x ∈ sightingsOfLinks operand ls) : x.Of ls := by
  -- On the length, as for the chains that are read.
  induction hn : ls.length using Nat.strong_induction_on generalizing ls with
  | _ n ih =>
      rcases mem_sightingsOfLinks.mp hx with hx | ⟨l, ms, rfl, -, hx⟩
      · exact of_mem_sightingsOf honest_connective hx
      · refine Sighting.Of.mono ?_ (List.suffix_cons l ms)
        rcases hx with hx | ⟨o, rest, ho, hx⟩
        · exact h.within hx
        · have hlt := ho.shorter
          simp only [List.length_cons] at hn
          exact (ih _ (by omega) hx rfl).mono (h.covers ho).suffix

/-- Links are shown to the last. -/
theorem Faithful.covers_links (h : operand.Faithful) {s g : Stacks} {ls rest : List Lexeme}
    (hk : Reader.LinksGive operand.reader s ls g rest) :
    Covers (sightingsOfLinks operand ls) ls rest := by
  induction hn : ls.length using Nat.strong_induction_on generalizing ls s with
  | _ n ih =>
      rcases hk.ends_or_begins with ⟨rfl, -, -⟩ | ⟨l, c, ms, o, ns, rfl, hl, ho, hk⟩
      · exact .refl _
      · have hlt := ho.shorter
        simp only [List.length_cons] at hn
        have hconnective := covers_sightingsOf honest_connective (exists_connective hl) ms
        refine ((hconnective.append (h.covers ho)).append (ih _ (by omega) hk rfl)).mono
          fun x hx => mem_sightingsOfLinks.mpr ?_
        simp only [List.mem_append] at hx
        rcases hx with (hx | hx) | hx
        · exact .inl hx
        · exact .inr ⟨l, ms, rfl, by simp [hl], .inl hx⟩
        · exact .inr ⟨l, ms, rfl, by simp [hl], .inr ⟨o, ns, ho, hx⟩⟩

/-- A group is shown from its first operand to its last. -/
theorem Faithful.grouped (h : operand.Faithful) : (grouped limit operand).Faithful where
  within {ls x} hx := by
    rcases List.mem_append.mp hx with hx | hx
    · exact h.within hx
    · exact h.of_mem_behind h.of_mem_links hx
  covers {ls o rest} hg := by
    obtain ⟨_, _, g, os, ⟨t, ht, rfl, rfl⟩, hk, -⟩ := Reader.gives_grouped.mp hg
    exact (h.covers ⟨t, ht, rfl, rfl⟩).append
      ((h.covers_links hk).mono fun x hx => mem_behind.mpr ⟨t, ht, hx⟩)

/-- Negations show what stands there. -/
theorem of_mem_sightingsOfNegations {ls : List Lexeme} {x : Sighting}
    (hx : x ∈ sightingsOfNegations ls) : x.Of ls := by
  induction ls with
  | nil => exact of_mem_sightingsOf honest_negation hx
  | cons l ls ih =>
      rcases List.mem_append.mp hx with hx | hx
      · exact of_mem_sightingsOf honest_negation hx
      · split at hx
        · exact (ih hx).mono (List.suffix_cons _ _)
        · cases hx

/-- Negations are shown to the last. -/
theorem covers_negations (ls : List Lexeme) :
    Covers (sightingsOfNegations ls) ls (ls.drop (Reader.negations ls)) := by
  induction ls with
  | nil => exact .refl _
  | cons l ls ih =>
      unfold sightingsOfNegations Reader.negations
      by_cases hl : l.isNegation = true
      · rw [if_pos hl, List.takeWhile_cons_of_pos hl]
        exact (covers_sightingsOf honest_negation (exists_negation hl) ls).append ih
      · rw [List.takeWhile_cons_of_neg hl]
        exact .refl _

/-- A negated operand is shown, its negations first. -/
theorem Faithful.negated (h : operand.Faithful) : (negated limit operand).Faithful where
  within {ls x} hx := by
    rcases List.mem_append.mp hx with hx | hx
    · exact of_mem_sightingsOfNegations hx
    · split at hx
      · exact (h.within hx).mono (List.drop_suffix _ _)
      · cases hx
  covers {ls o rest} hg := by
    obtain ⟨hn, p, hp, -⟩ := Reader.gives_negated.mp hg
    refine (covers_negations ls).append ?_
    rw [if_pos hn]
    exact h.covers hp

variable {chain? : Option (Traced Operand)}

theorem Faithful.inParens (h : operand.Faithful) : (inParens operand).Faithful :=
  h.followedBy (faithful_symbol _ _)

theorem Faithful.arguments (h : operand.Faithful) : (arguments operand).Faithful :=
  h.closed _ _

/-- Arguments show what stands there. -/
theorem of_mem_sightingsOfArguments (h : ∀ chain ∈ chain?, chain.Faithful) {ls : List Lexeme}
    {x : Sighting} (hx : x ∈ sightingsOfArguments chain? ls) : x.Of ls := by
  rcases List.mem_append.mp hx with hx | hx
  · exact of_mem_sightingsOf (by simp) hx
  · revert hx
    split
    · next ms chain =>
        intro hx
        rcases List.mem_append.mp hx with hx | hx
        · exact of_mem_sightingsOf (by simp) hx
        · exact ((h chain rfl).arguments.within hx).mono (List.suffix_cons _ _)
    · exact fun hx => absurd hx List.not_mem_nil

/-- A primary shows what stands there, behind its first lexeme. -/
theorem of_mem_sightingsOfPrimary (h : ∀ chain ∈ chain?, chain.Faithful) {ls : List Lexeme}
    {x : Sighting} (hx : x ∈ sightingsOfPrimary chain? ls) : x.Of ls := by
  unfold sightingsOfPrimary at hx
  split at hx
  · split at hx
    · cases hx
    · next chain => exact ((h chain rfl).inParens.within hx).mono (List.suffix_cons _ _)
  · exact ((faithful_name _).within hx).mono (List.suffix_cons _ _)
  · exact (of_mem_sightingsOfArguments h hx).mono (List.suffix_cons _ _)
  · cases hx

/-- What is taken behind the first lexeme of a primary. -/
theorem covers_primary (h : ∀ chain ∈ chain?, chain.Faithful) {l : Lexeme}
    {ls rest : List Lexeme} {o : Operand}
    (hg : (primary limit chain?).reader.Gives (l :: ls) o rest) :
    Covers (sightingsOfPrimary chain? (l :: ls)) ls rest := by
  obtain ⟨ms, e | e | ⟨x, e, hms | ⟨ns, rfl⟩⟩⟩ := Reader.exists_of_gives_primary hg <;> cases e
  · obtain ⟨r, hr, hg⟩ := Reader.gives_primary_parens.mp hg
    obtain ⟨chain, rfl, rfl⟩ := Option.map_eq_some_iff.mp hr
    exact (h chain rfl).inParens.covers
      (Reader.gives_followedBy.mpr ⟨_, (), hg, Reader.gives_symbol.mpr rfl⟩)
  · obtain ⟨f, rfl, -⟩ := Reader.gives_primary_reference.mp hg
    exact (faithful_name .formulaName).covers (Reader.gives_name.mpr rfl)
  · obtain ⟨rfl, -⟩ := (Reader.gives_primary_variable hms).mp hg
    exact .refl _
  · obtain ⟨r, args, hr, hg, -⟩ := Reader.gives_primary_application.mp hg
    obtain ⟨chain, rfl, rfl⟩ := Option.map_eq_some_iff.mp hr
    exact (covers_symbol .openParen ns).append
      ((h chain rfl).arguments.covers hg |>.mono (List.subset_append_right _ _))

/-- A primary is shown, whichever of the three looks finds its first lexeme. -/
theorem faithful_primary (h : ∀ chain ∈ chain?, chain.Faithful) :
    (primary limit chain?).Faithful where
  within {ls x} hx := by
    rcases List.mem_append.mp hx with hx | hx
    · exact of_mem_sightingsOf (by simp) hx
    · exact of_mem_sightingsOfPrimary h hx
  covers {ls o rest} hg := by
    obtain ⟨l, ms, rfl, hfind⟩ : ∃ l ms, ls = l :: ms ∧
        ∃ look ∈ [Look.symbol .openParen, Look.symbol .atSign, Look.name], (look l).isSome := by
      obtain ⟨ms, rfl | rfl | ⟨x, rfl, -⟩⟩ := Reader.exists_of_gives_primary hg
      all_goals exact ⟨_, ms, rfl, by simp [Look.symbol, Look.name]⟩
    exact (covers_sightingsOf (by simp) hfind ms).append (covers_primary h hg)

/-- **A chain comes across all that it takes**, and across nothing that is not there. -/
theorem faithful_chain (limit nesting : Nat) : (chain limit nesting).Faithful := by
  -- On the nesting: what stands in parentheses is read with one less.
  induction nesting with
  | zero => exact (faithful_primary (by simp)).negated.grouped
  | succ nesting ih => exact (faithful_primary (by simpa using ih)).negated.grouped

theorem faithful_expression (limit : Nat) : (expression limit).Faithful :=
  (faithful_chain limit limit).map _

end Expression

/-! ### Statements -/

theorem honest_truthValue : ∀ look ∈ Look.truthValue, look.Honest := by
  simp [Look.truthValue]

theorem exists_truthValue {l : Lexeme} {b : Bool} (h : l.truthValue? = some b) :
    ∃ look ∈ Look.truthValue, (look l).isSome := by
  cases Lexeme.truthValue?_eq_some.mp h <;> decide

theorem faithful_truthValue : truthValue.Faithful :=
  faithful_accept honest_truthValue exists_truthValue

theorem faithful_image : image.Faithful :=
  (faithful_symbol _ _).bind fun _ => faithful_truthValue

theorem faithful_assignment : assignment.Faithful :=
  (faithful_name _).bind fun _ => (faithful_symbol _ _).bind fun _ => faithful_truthValue.map _

theorem faithful_cell : cell.Faithful := by
  refine faithful_accept (List.forall_mem_cons.mpr ⟨Look.honest_wildcard, honest_truthValue⟩) ?_
  intro l c h
  cases Lexeme.cell?_eq_some.mp h with
  | blank => exact ⟨_, List.mem_cons_self, rfl⟩
  | value hb =>
      obtain ⟨look, hlook, hl⟩ := exists_truthValue (Lexeme.truthValue?_eq_some.mpr hb)
      exact ⟨look, List.mem_cons_of_mem _ hlook, hl⟩

theorem faithful_patternEntry : patternEntry.Faithful :=
  (faithful_cell.parenthesized _).bind fun _ => faithful_image.map _

theorem faithful_otherwiseEntry : otherwiseEntry.Faithful :=
  (faithful_keyword _ _).bind fun _ => faithful_image.map _

/-- Without the keyword in front, an entry is looked for as a pattern. -/
theorem sightings_entry {ls : List Lexeme} (h : ∀ ms, ls ≠ .keyword .otherwise :: ms) :
    entry.sightings ls = sightingsOf [.keyword [.otherwise]] ls ++ patternEntry.sightings ls := by
  unfold entry
  dsimp only
  split
  · next ms => exact absurd rfl (h ms)
  · rfl

/-- An entry is shown, of either kind. -/
theorem faithful_entry : entry.Faithful where
  within {ls x} hx := by
    by_cases hls : ∃ ms, ls = .keyword .otherwise :: ms
    · obtain ⟨ms, rfl⟩ := hls
      exact faithful_otherwiseEntry.within hx
    · rw [sightings_entry fun ms e => hls ⟨ms, e⟩, List.mem_append] at hx
      rcases hx with hx | hx
      · exact of_mem_sightingsOf (by simp) hx
      · exact faithful_patternEntry.within hx
  covers {ls e rest} hg := by
    by_cases hls : ∃ ms, ls = .keyword .otherwise :: ms
    · obtain ⟨ms, rfl⟩ := hls
      exact faithful_otherwiseEntry.covers hg
    · have hne : ∀ ms, ls ≠ .keyword .otherwise :: ms := fun ms e => hls ⟨ms, e⟩
      obtain ⟨t, ht, ha, hr⟩ := hg
      rw [sightings_entry hne]
      exact (faithful_patternEntry.covers
        ⟨t, (Reader.entry_eq_patternEntry hne).symm.trans ht, ha, hr⟩).mono
          (List.subset_append_right _ _)

theorem faithful_operator : operator.Faithful :=
  (faithful_name _).bind fun _ => ((faithful_name _).parenthesized _).bind fun _ =>
    (faithful_symbol _ _).bind fun _ => faithful_entry.braced.map _

theorem faithful_operatorName :
    (accept .operatorName Lexeme.operatorName? Look.operatorName).Faithful := by
  refine faithful_accept (by simp [Look.operatorName]) ?_
  intro l n h
  cases Lexeme.operatorName?_eq_some.mp h <;> simp [Look.operatorName, Look.keyword, Look.name]

/-- A definition is shown, of any kind. -/
theorem faithful_definition (limit : Nat) (k : DefinitionKind) :
    (definition limit k).Faithful := by
  cases k with
  | vars => exact (faithful_name _).separated.map _
  | formula =>
      exact (faithful_name _).bind fun _ => (faithful_symbol _ _).bind fun _ =>
        (faithful_expression limit).map _
  | valuation =>
      exact (faithful_name _).bind fun _ => (faithful_symbol _ _).bind fun _ =>
        faithful_assignment.braced.map _
  | operator => exact faithful_operator.map _
  | opset =>
      exact (faithful_name _).bind fun _ => (faithful_symbol _ _).bind fun _ =>
        faithful_operatorName.braced.map _

theorem faithful_definitionKind : definitionKind.Faithful := by
  refine faithful_accept (by simp) ?_
  rintro l k h
  obtain rfl := Lexeme.definitionKind?_eq_some.mp h
  cases k <;> decide

theorem faithful_action (limit : Nat) (v : StatementVerb) : (action limit v).Faithful := by
  cases v with
  | define => exact faithful_definitionKind.bind (faithful_definition limit)
  | evaluate =>
      exact (faithful_name _).bind fun _ => (faithful_keyword _ _).bind fun _ =>
        (faithful_name _).map _
  | adequate => exact (faithful_name _).map _

theorem faithful_verb : verb.Faithful := by
  refine faithful_accept (by simp) ?_
  rintro l v h
  obtain rfl := Lexeme.verb?_eq_some.mp h
  cases v <;> decide

theorem faithful_statement (limit : Nat) : (statement limit).Faithful :=
  (faithful_verb.bind (faithful_action limit)).followedBy (faithful_symbol _ _)

/-! ### The readers that are traced -/

/-- The reader that is traced is the one that reads chains. -/
theorem reader_chain (limit nesting : Nat) :
    (chain limit nesting).reader = Reader.chain limit nesting := by
  induction nesting with
  | zero => rfl
  | succ nesting ih =>
      show Reader.grouped limit
        (Reader.negated limit (Reader.primary limit (some (chain limit nesting).reader))) = _
      rw [ih]
      rfl

theorem reader_definition (limit : Nat) (k : DefinitionKind) :
    (definition limit k).reader = Reader.definition limit k := by
  cases k with
  | formula =>
      show (Reader.name _ >>= fun f => Reader.equals >>= fun _ =>
        Statement.defineFormula f <$> (Operand.expr <$> (chain limit limit).reader)) = _
      rw [reader_chain]
      rfl
  | _ => rfl

theorem reader_action (limit : Nat) (v : StatementVerb) :
    (action limit v).reader = Reader.action limit v := by
  cases v with
  | define => exact congrArg (Reader.accept _ _ >>= ·) (funext (reader_definition limit))
  | _ => rfl

/-- The reader that is traced is the one that reads statements. -/
theorem reader_statement (limit : Nat) : (statement limit).reader = Reader.statement limit := by
  have h : (fun v => (action limit v).reader) = Reader.action limit :=
    funext (reader_action limit)
  show Reader.followedBy (Reader.accept _ _ >>= fun v => (action limit v).reader) _ = _
  rw [h]
  rfl

end Traced

/-! ### Programs -/

section Program

variable {limit : Nat} {ls : List Lexeme} {x : Sighting}

/-- Traced readers read what the others do. -/
theorem program_fst (limit : Nat) (ls : List Lexeme) :
    (Traced.program limit ls).1 = readProgram limit ls := by
  fun_induction readProgram limit ls with
  | case1 => rw [Traced.program, if_pos rfl]
  | case2 ls hls e he =>
      rw [Traced.program, if_neg hls, Traced.reader_statement, he]
  | case3 ls hls t ht _ r ih =>
      rw [Traced.program, if_neg hls, Traced.reader_statement, ht]
      dsimp only
      rw [ih]

/-- A program shows the gap in front of each statement, and then the statement. -/
theorem mem_program :
    x ∈ (Traced.program limit ls).2 ↔ x = .gap ls ∨ ls ≠ [] ∧
      (x ∈ (Traced.statement limit).sightings ls ∨ ∃ st rest,
        (Reader.statement limit).Gives ls st rest ∧ x ∈ (Traced.program limit rest).2) := by
  rw [Traced.program]
  by_cases hls : ls = []
  · simp [hls]
  · rw [if_neg hls, and_iff_right hls, Traced.reader_statement]
    dsimp only
    split
    · next e he =>
        rw [List.mem_cons]
        refine or_congr_right (iff_self_or.mpr ?_)
        rintro ⟨_, _, ⟨t, ht, -⟩, -⟩
        cases he.symm.trans ht
    · next t ht =>
        rw [List.mem_append, List.mem_cons, or_assoc]
        refine or_congr_right (or_congr_right ⟨fun hx => ⟨_, _, ⟨t, ht, rfl, rfl⟩, hx⟩, ?_⟩)
        rintro ⟨_, _, ⟨u, hu, rfl, rfl⟩, hx⟩
        cases hu.symm.trans ht
        exact hx

/-- What a statement comes across, for the reader that is not traced. -/
theorem covers_statement {rest : List Lexeme} {st : Statement}
    (h : (Reader.statement limit).Gives ls st rest) :
    Covers ((Traced.statement limit).sightings ls) ls rest :=
  (Traced.faithful_statement limit).covers ((Traced.reader_statement limit).symm ▸ h)

/-- **Reading a program comes across nothing but its lexemes and gaps**, whether it is read to its
end or not. -/
theorem of_mem_program (hx : x ∈ (Traced.program limit ls).2) : x.Of ls := by
  -- On the length: the statements behind the first are in what it leaves.
  induction hn : ls.length using Nat.strong_induction_on generalizing ls with
  | _ n ih =>
      rcases mem_program.mp hx with rfl | ⟨-, hx | ⟨st, rest, hst, hx⟩⟩
      · exact .gap List.suffix_rfl
      · exact (Traced.faithful_statement limit).within hx
      · exact (ih _ (hn ▸ hst.shorter) hx rfl).mono (covers_statement hst).suffix

/-- **Reading a program to its end comes across all its lexemes**, and all gaps with the one behind
the last lexeme. -/
theorem covers_program {p : Program} (h : readProgram limit ls = ⟨p, none⟩) :
    Covers (Traced.program limit ls).2 ls [] ∧ .gap [] ∈ (Traced.program limit ls).2 := by
  induction hn : ls.length using Nat.strong_induction_on generalizing ls p with
  | _ n ih =>
      by_cases hls : ls = []
      · subst hls
        exact ⟨.refl _, mem_program.mpr (.inl rfl)⟩
      · obtain ⟨st, rest, q, hst, hq, -⟩ := (readProgram_eq_of_ne_nil hls).mp h
        obtain ⟨hrest, hgap⟩ := ih _ (hn ▸ hst.shorter) hq rfl
        have hsub : (Traced.program limit rest).2 ⊆ (Traced.program limit ls).2 := fun x hx =>
          mem_program.mpr (.inr ⟨hls, .inr ⟨st, rest, hst, hx⟩⟩)
        refine ⟨((covers_statement hst).mono fun x hx => ?_).trans (hrest.mono hsub), hsub hgap⟩
        exact mem_program.mpr (.inr ⟨hls, .inl hx⟩)

end Program

end PropBench
