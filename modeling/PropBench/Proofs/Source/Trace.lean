import PropBench.Proofs.Grammar.Trace
import PropBench.Proofs.Lexeme.Tiling
import PropBench.Proofs.Source.Parsing

/-!
# Proofs — Source — Trace

The trace of a text against its pieces.

* `inOrder_eq`: the messages in order, each of them once, are the one list in order that has them.
* `Scan.mem_tiling_of_messages`: what is told of a sighting is a piece of the text, at its place.
* `Scan.exists_sighting`: each piece of a text is told of, if all its lexemes are come across.
* `Config.read_fst`: what is read is the same, whether a trace is kept or not.
* `trace_exact`: the trace of a program is the tiling of its text.
-/

namespace PropBench

/-! ### Messages in order -/

/-- The place of a message comes before that of another. -/
def Message.Before (m n : Message) : Prop := m.1.isBefore n.1

instance : Std.Irrefl Message.Before := ⟨fun m => m.1.not_isBefore_self⟩

instance : Std.Antisymm Message.Before :=
  ⟨fun m _ h₁ h₂ => absurd (Position.isBefore_trans h₁ h₂) m.1.not_isBefore_self⟩

theorem mem_insertMessage {m n : Message} {ms : List Message} :
    n ∈ insertMessage m ms ↔ n = m ∨ n ∈ ms := by
  induction ms with
  | nil => simp [insertMessage]
  | cons k ms ih =>
      unfold insertMessage
      split
      · simp
      · split
        · next h => subst h; simp
        · simp only [List.mem_cons, ih]
          exact or_left_comm

/-- Putting messages in order loses none and adds none. -/
theorem mem_inOrder {m : Message} {ms : List Message} : m ∈ inOrder ms ↔ m ∈ ms := by
  induction ms with
  | nil => exact Iff.rfl
  | cons k ms ih =>
      show m ∈ insertMessage k (inOrder ms) ↔ _
      rw [mem_insertMessage, ih, List.mem_cons]

/-- A message finds its place, where no other is made of the same one. -/
theorem pairwise_insertMessage {m : Message} {ms : List Message} (h : ms.Pairwise Message.Before)
    (hm : ∀ n ∈ ms, n.1 = m.1 → n = m) : (insertMessage m ms).Pairwise Message.Before := by
  induction ms with
  | nil => exact List.pairwise_singleton _ _
  | cons k ms ih =>
      obtain ⟨hk, hms⟩ := List.pairwise_cons.mp h
      unfold insertMessage
      split
      · next hbefore =>
          refine .cons (fun n hn => ?_) h
          rcases List.mem_cons.mp hn with rfl | hn
          · exact hbefore
          · exact Position.isBefore_trans hbefore (hk n hn)
      · next hbefore =>
          split
          · exact h
          · next hne =>
              have hplace : m.1 ≠ k.1 := fun e => hne (hm k List.mem_cons_self e.symm).symm
              refine .cons (fun n hn => ?_) (ih hms fun n hn => hm n (List.mem_cons_of_mem _ hn))
              rcases mem_insertMessage.mp hn with rfl | hn
              · exact Position.isBefore_of_ne hplace hbefore
              · exact hk n hn

/-- Messages are in order, if no two of them have one place. -/
theorem pairwise_inOrder {ms : List Message} (h : ∀ m ∈ ms, ∀ n ∈ ms, m.1 = n.1 → m = n) :
    (inOrder ms).Pairwise Message.Before := by
  induction ms with
  | nil => exact .nil
  | cons k ms ih =>
      refine pairwise_insertMessage (ih fun m hm n hn => ?_) fun n hn => ?_
      · exact h m (List.mem_cons_of_mem _ hm) n (List.mem_cons_of_mem _ hn)
      · exact h n (List.mem_cons_of_mem _ (mem_inOrder.mp hn)) k List.mem_cons_self

/-- Messages in order, each of them once, are the one list in order that has them. -/
theorem inOrder_eq {ms ts : List Message} (hts : ts.Pairwise Message.Before)
    (h : ∀ m, m ∈ ms ↔ m ∈ ts) : inOrder ms = ts := by
  have hplaces : (ts.map Prod.fst).Nodup := by
    refine List.pairwise_map.mpr (hts.imp fun {m n} hbefore e => n.1.not_isBefore_self ?_)
    rwa [Message.Before, e] at hbefore
  refine List.Pairwise.eq_of_mem_iff (pairwise_inOrder fun m hm n hn e => ?_) hts
    fun m => mem_inOrder.trans (h m)
  exact List.inj_on_of_nodup_map hplaces ((h m).mp hm) ((h n).mp hn) e

/-! ### Pieces that are told of -/

theorem Piece.kind_of_lexeme? {p : Piece} {l : Lexeme} (h : p.lexeme? = some l) :
    p.kind = .lexeme l := by
  unfold lexeme? at h
  split at h
  · next hk => cases h; exact hk
  · cases h

/-- The pieces behind others start where those end. -/
theorem locate_append (p : Position) (ps qs : List Piece) :
    locate p (ps ++ qs) = locate p ps ++ locate (p.after (textOf ps)) qs := by
  induction ps generalizing p with
  | nil => rfl
  | cons q ps ih =>
      show (p, q) :: locate (p.after q.text) (ps ++ qs) = _
      rw [ih, ← Position.after_append]
      rfl

/-- A message of a piece: what stands behind the pieces in front of it. -/
theorem mem_kindsOf_locate {p : Position} {ps : List Piece} {m : Message} :
    m ∈ kindsOf (locate p ps) ↔
      ∃ front q behind, ps = front ++ q :: behind ∧ m = (p.after (textOf front), q.kind) := by
  constructor
  · intro h
    induction ps generalizing p with
    | nil => cases h
    | cons q ps ih =>
        rcases List.mem_cons.mp h with rfl | h
        · exact ⟨[], q, ps, rfl, rfl⟩
        · obtain ⟨front, r, behind, rfl, rfl⟩ := ih h
          exact ⟨q :: front, r, behind, rfl, by rw [← Position.after_append]; rfl⟩
  · rintro ⟨front, q, behind, rfl, rfl⟩
    rw [locate_append, kindsOf, List.map_append]
    exact List.mem_append_right _ List.mem_cons_self

/-- What is passed before a lexeme is among the pieces. -/
theorem mem_of_mem_gapBefore {k : Nat} {ps : List (Position × Piece)} {p : Position × Piece}
    (h : p ∈ gapBefore k ps) : p ∈ ps := by
  fun_induction gapBefore k ps with
  | case1 => cases h
  | case2 => cases h
  | case3 q ps _ ih =>
      rcases List.mem_cons.mp h with rfl | h
      · exact List.mem_cons_self
      · exact List.mem_cons_of_mem _ (ih h)
  | case4 k q ps ih => exact List.mem_cons_of_mem _ (ih h)

/-- The pieces in front of a lexeme, if the others are known. -/
theorem inFrontOf_append {q : Piece} {l : Lexeme} (hq : q.lexeme? = some l)
    (front behind : List Piece) :
    inFrontOf (front.filterMap Piece.lexeme?).length (front ++ q :: behind) = front := by
  induction front with
  | nil => exact inFrontOf_zero_cons hq behind
  | cons p front ih =>
      cases hp : p.lexeme? with
      | none => rw [List.filterMap_cons_none hp, List.cons_append, inFrontOf_cons hp, ih]
      | some m =>
          rw [List.filterMap_cons_some hp, List.length_cons, List.cons_append,
            inFrontOf_succ_cons hp, ih]

/-- A blank or comment is in the gap behind the lexemes in front of it. -/
theorem mem_gapBefore {q : Piece} (hq : q.isLexeme = false) (p : Position)
    (front behind : List Piece) :
    (p.after (textOf front), q) ∈
      gapBefore (front.filterMap Piece.lexeme?).length (locate p (front ++ q :: behind)) := by
  induction front generalizing p with
  | nil =>
      show (p, q) ∈ gapBefore 0 ((p, q) :: locate (p.after q.text) behind)
      rw [gapBefore, if_neg (by simp [hq])]
      exact List.mem_cons_self
  | cons r front ih =>
      have ih := ih (p.after r.text)
      rw [← Position.after_append] at ih
      show (p.after (r.text ++ textOf front), q) ∈
        gapBefore _ ((p, r) :: locate (p.after r.text) (front ++ q :: behind))
      cases hr : r.lexeme? with
      | none =>
          have hno : ¬ r.isLexeme = true := by simp [Piece.isLexeme, hr]
          rw [List.filterMap_cons_none hr]
          -- A piece that is no lexeme is in the first gap, and counts for none behind it.
          cases hk : (front.filterMap Piece.lexeme?).length with
          | zero =>
              rw [hk] at ih
              rw [gapBefore, if_neg hno]
              exact List.mem_cons_of_mem _ ih
          | succ k =>
              rw [hk] at ih
              rw [gapBefore, if_neg hno]
              exact ih
      | some l =>
          have hyes : r.isLexeme = true := by simp [Piece.isLexeme, hr]
          rw [List.filterMap_cons_some hr, List.length_cons, gapBefore, if_pos hyes]
          exact ih

namespace Scan

variable {s : Scan}

/-- The pieces of a scan by their places. -/
def tiling (s : Scan) : List Message := kindsOf (locate .start s.pieces)

theorem index_of_append {front left : List Lexeme} (h : s.lexemes = front ++ left) :
    s.index left = front.length := by
  rw [index, h, List.length_append, Nat.add_sub_cancel]

/-- **What is told of a sighting is so**: it is a piece of the text, at its place. -/
theorem mem_tiling_of_messages {x : Sighting} (h : x.Of s.lexemes) {m : Message}
    (hm : m ∈ s.messages x) : m ∈ s.tiling := by
  cases h with
  | gap =>
      obtain ⟨p, hp, rfl⟩ := List.mem_map.mp hm
      exact List.mem_map_of_mem (mem_of_mem_gapBefore hp)
  | @lexeme l left hl =>
      obtain ⟨front, hfront⟩ := hl
      obtain rfl := List.mem_singleton.mp hm
      obtain ⟨qs, hps, -, hqs⟩ := exists_inFrontOf s.pieces hfront.symm
      obtain ⟨q, hq, hql⟩ := Option.map_eq_some_iff.mp hqs
      obtain ⟨behind, rfl⟩ := List.head?_eq_some_iff.mp hq
      refine mem_kindsOf_locate.mpr ⟨_, q, behind, hps, ?_⟩
      rw [Piece.kind_of_lexeme? hql, place, index_of_append hfront.symm]

/-- **Each piece is told of**, if all lexemes are come across, and all gaps. -/
theorem exists_sighting {xs : List Sighting} (h : Covers xs s.lexemes [])
    (hend : .gap [] ∈ xs) {m : Message} (hm : m ∈ s.tiling) :
    m ∈ xs.flatMap s.messages := by
  obtain ⟨front, q, behind, hps, rfl⟩ := mem_kindsOf_locate.mp hm
  refine List.mem_flatMap.mpr ?_
  have hlexemes : s.lexemes = front.filterMap Piece.lexeme? ++
      (q :: behind).filterMap Piece.lexeme? := by
    rw [lexemes, hps, List.filterMap_append]
  cases hq : q.lexeme? with
  | none =>
      rw [List.filterMap_cons_none hq] at hlexemes
      refine ⟨_, h.gap_mem hend ⟨_, hlexemes.symm⟩, ?_⟩
      rw [messages, index_of_append hlexemes, hps]
      exact List.mem_map_of_mem (mem_gapBefore (by simp [Piece.isLexeme, hq]) _ front behind)
  | some l =>
      rw [List.filterMap_cons_some hq] at hlexemes
      refine ⟨_, (h.mem ⟨_, hlexemes.symm⟩ List.nil_suffix).2, ?_⟩
      rw [messages, place, index_of_append hlexemes, hps, inFrontOf_append hq,
        Piece.kind_of_lexeme? hq]
      exact List.mem_singleton_self _

end Scan

/-! ### The trace of a text -/

namespace Config

variable {config : Config} {source : String}

/-- **Keeping a trace changes nothing about what is read**: the reading with messages gives the
program or the error of the text. -/
theorem read_fst (config : Config) (source : String) :
    (config.read source).1 = config.parse source := by
  rw [read, parse, parseProgram, parseText, ← program_fst]
  dsimp only
  cases refusalOf (scan source.toList)
    (Traced.program config.maxExpressionDepth (scan source.toList).lexemes).1 <;> rfl

/-- The messages of a reading are those of what is come across, in order. -/
theorem read_snd (h : config.traceLexemes = true) :
    (config.read source).2 = (Traced.program config.maxExpressionDepth
      (scan source.toList).lexemes).2.flatMap (scan source.toList).messages := by
  rw [read]
  exact if_pos h

/-- Each message is a piece of the text, also where the text is no program. -/
theorem mem_tiling_of_read (h : config.traceLexemes = true) {m : Message}
    (hm : m ∈ (config.read source).2) : m ∈ (scan source.toList).tiling := by
  rw [read_snd h] at hm
  obtain ⟨x, hx, hm⟩ := List.mem_flatMap.mp hm
  exact Scan.mem_tiling_of_messages (of_mem_program hx) hm

/-- The messages of a program are the pieces of its text. -/
theorem mem_read_iff (h : config.traceLexemes = true) {p : Program}
    (hp : config.parse source = .ok p) {m : Message} :
    m ∈ (config.read source).2 ↔ m ∈ (scan source.toList).tiling := by
  refine ⟨mem_tiling_of_read h, fun hm => ?_⟩
  obtain ⟨hcovers, hend⟩ := covers_program (parseProgram_eq_ok_iff_read.mp hp).2
  rw [read_snd h]
  exact Scan.exists_sighting hcovers hend hm

end Config

/-- **The trace of a program is the tiling of its text**: its messages, each of them once and in
order, are the blanks, comments and lexemes that the text consists of, each at its own place, and
the text is tiled in no other way.  Whether a trace is kept changes neither the program nor the
error of a text. -/
theorem trace_exact (config : Config) (source : String) :
    (∀ on, ({ config with traceLexemes := on }.read source).1 = config.parse source) ∧
    ∀ p, config.traceLexemes = true → config.parse source = .ok p →
      Tiles .start source.toList (config.trace source) ∧
      (∀ ts, Tiles .start source.toList ts → ts = config.trace source) ∧
      (config.trace source).Pairwise Message.Before ∧
      ∀ m, m ∈ config.trace source ↔ m ∈ (config.read source).2 := by
  refine ⟨fun on => Config.read_fst _ _, fun p hon hp => ?_⟩
  have htiles : Tiles .start source.toList (scan source.toList).tiling :=
    tiles_iff.mpr ⟨(parseProgram_eq_ok_iff_read.mp hp).1, rfl⟩
  have htrace : config.trace source = (scan source.toList).tiling :=
    inOrder_eq htiles.pairwise fun m => Config.mem_read_iff hon hp
  rw [htrace]
  refine ⟨htiles, fun ts hts => (tiles_iff.mp hts).2, htiles.pairwise, fun m => ?_⟩
  exact (Config.mem_read_iff hon hp).symm

/-- What is looked for in vain, and what is looked at again, is not in the trace twice. -/
theorem traced_negation :
    let config : Config := { (default : Config) with traceLexemes := true }
    let source := "DEFINE FORMULA f = !a;// b"
    let pieces : List Message := [
      (⟨1, 1⟩, .lexeme (.keyword .define)), (⟨1, 7⟩, .whitespace),
      (⟨1, 8⟩, .lexeme (.keyword .formulaKind)), (⟨1, 15⟩, .whitespace),
      (⟨1, 16⟩, .lexeme (.name "f")), (⟨1, 17⟩, .whitespace),
      (⟨1, 18⟩, .lexeme (.symbol .equals)), (⟨1, 19⟩, .whitespace),
      (⟨1, 20⟩, .lexeme (.symbol .bang)), (⟨1, 21⟩, .lexeme (.name "a")),
      (⟨1, 22⟩, .lexeme (.symbol .semicolon)), (⟨1, 23⟩, .lineComment)]
    config.traceLexemes = true ∧
      config.parse source = .ok [.defineFormula "f" (.not (.var "a"))] ∧
      config.trace source = pieces ∧ Tiles .start source.toList pieces := by
  intro config source pieces
  have hparse : config.parse source = .ok [.defineFormula "f" (.not (.var "a"))] := by
    refine (parseProgram_of_no_error (by decide +kernel)).trans (congrArg Except.ok ?_)
    decide +kernel
  have htrace : config.trace source = pieces := by decide +kernel
  obtain ⟨htiles, -⟩ := (trace_exact config source).2 _ rfl hparse
  exact ⟨rfl, hparse, htrace, htrace ▸ htiles⟩

end PropBench
