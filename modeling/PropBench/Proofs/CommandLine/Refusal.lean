import PropBench.CommandLine.Basic
import PropBench.Proofs.Except
import PropBench.Proofs.Source.Wording

/-!
# Proofs — Command line — Refusal

When a command cannot begin.

* `Options.Asks`: the settings that the options ask for.
* `Input.ReadAs`, `Input.Refused`: an input that is read as a program, and one that is not, with the
  message about it.
* `Options.attempt_eq_error_iff`, `Options.attempt_eq_ok_iff`: it is refused for the first thing
  that is wrong, and runs all programs in one fresh session if nothing is.
-/

namespace PropBench

/-! ### Options -/

namespace Options

variable {o : Options} {config : Config}

/-- The settings are those asked for; what is not asked for is as it is by default. -/
structure Asks (o : Options) (config : Config) : Prop where
  haltOnError : config.haltOnError = o.haltOnError
  traceLexemes : config.traceLexemes = o.traceLexemes
  maxOperatorArity : config.maxOperatorArity = o.maxArity?.getD 16
  maxExpressionDepth : config.maxExpressionDepth = o.maxDepth?.getD 256

/-- The limit asked for on the arity of operators can be set. -/
def ArityInBounds (o : Options) : Prop := ∀ n ∈ o.maxArity?, n ≤ 24

/-- The limit asked for on the depth of expressions can be set. -/
def DepthInBounds (o : Options) : Prop := ∀ n ∈ o.maxDepth?, 1 ≤ n ∧ n ≤ 1024

/-- The options ask for one configuration. -/
theorem Asks.unique {config' : Config} (h : o.Asks config) (h' : o.Asks config') :
    config = config' := by
  cases config
  cases config'
  obtain ⟨hhalt, htrace, harity, hdepth⟩ := h
  obtain ⟨hhalt', htrace', harity', hdepth'⟩ := h'
  simp_all

/-- What the options ask for lies in the bounds. -/
theorem Asks.inBounds (h : o.Asks config) : o.ArityInBounds ∧ o.DepthInBounds := by
  constructor
  · intro n hn
    have harity := h.maxOperatorArity
    rw [hn, Option.getD_some] at harity
    exact harity ▸ config.arity_le
  · intro n hn
    have hdepth := h.maxExpressionDepth
    rw [hn, Option.getD_some] at hdepth
    exact hdepth ▸ ⟨config.depth_pos, config.depth_le⟩

/-- The settings with those switches that are no limits. -/
def switched (o : Options) : Config :=
  { (default : Config) with haltOnError := o.haltOnError, traceLexemes := o.traceLexemes }

/-- A setting that may be left as it is. -/
def setAny (config : Config) : Option Setting → Except OutOfBounds Config
  | none => .ok config
  | some setting => config.set setting

theorem foldlM_set_toList (config : Config) (n? : Option Nat) (setting : Nat → Setting) :
    (n?.toList.map setting).foldlM Config.set config = setAny config (n?.map setting) := by
  cases n? with
  | none => rfl
  | some n =>
      rw [Option.toList_some, List.map_singleton, List.foldlM_cons]
      exact bind_pure _

/-- The configuration sets the switches first, then the arity, then the depth. -/
theorem config_eq (o : Options) :
    o.config = (do
      let config ← setAny o.switched (o.maxArity?.map .maxOperatorArity)
      setAny config (o.maxDepth?.map .maxExpressionDepth)) := by
  simp only [← foldlM_set_toList]
  rw [config, settings, List.append_assoc, List.foldlM_append]
  exact List.foldlM_append

/-- An arity in bounds is set, and nothing else. -/
theorem setAny_arity (config : Config) {n? : Option Nat} (h : ∀ n ∈ n?, n ≤ 24) :
    ∃ config', setAny config (n?.map .maxOperatorArity) = .ok config' ∧
      config'.maxOperatorArity = n?.getD config.maxOperatorArity ∧
      config'.maxExpressionDepth = config.maxExpressionDepth ∧
      config'.haltOnError = config.haltOnError ∧ config'.traceLexemes = config.traceLexemes := by
  cases n? with
  | none => exact ⟨config, rfl, rfl, rfl, rfl, rfl⟩
  | some n => exact ⟨_, dif_pos (h n rfl), rfl, rfl, rfl, rfl⟩

/-- A depth in bounds is set, and nothing else. -/
theorem setAny_depth (config : Config) {n? : Option Nat} (h : ∀ n ∈ n?, 1 ≤ n ∧ n ≤ 1024) :
    ∃ config', setAny config (n?.map .maxExpressionDepth) = .ok config' ∧
      config'.maxExpressionDepth = n?.getD config.maxExpressionDepth ∧
      config'.maxOperatorArity = config.maxOperatorArity ∧
      config'.haltOnError = config.haltOnError ∧ config'.traceLexemes = config.traceLexemes := by
  cases n? with
  | none => exact ⟨config, rfl, rfl, rfl, rfl, rfl⟩
  | some n => exact ⟨_, dif_pos (h n rfl), rfl, rfl, rfl, rfl⟩

/-- Bounds that are kept make a configuration. -/
theorem config_of_inBounds (harity : o.ArityInBounds) (hdepth : o.DepthInBounds) :
    ∃ config, o.config = .ok config ∧ o.Asks config := by
  obtain ⟨c, hc, hca, hcd, hch, hct⟩ := setAny_arity o.switched harity
  obtain ⟨d, hd, hdd, hda, hdh, hdt⟩ := setAny_depth c hdepth
  refine ⟨d, ?_, hdh.trans hch, hdt.trans hct, hda.trans hca, hdd.trans ?_⟩
  · rw [config_eq, hc]; exact hd
  · rw [hcd]; rfl

/-- An arity out of bounds is told, whatever the depth. -/
theorem config_of_not_arityInBounds (h : ¬ o.ArityInBounds) :
    o.config = .error ⟨"max_operator_arity", 0, 24⟩ := by
  simp only [ArityInBounds, not_forall] at h
  obtain ⟨n, hn, hgt⟩ := h
  rw [config_eq, hn, Option.map_some, setAny, Config.set,
    dif_neg (show ¬ n ≤ arityCeiling from hgt)]
  rfl

/-- A depth out of bounds is told, if the arity is in bounds. -/
theorem config_of_not_depthInBounds (harity : o.ArityInBounds) (h : ¬ o.DepthInBounds) :
    o.config = .error ⟨"max_expression_depth", 1, 1024⟩ := by
  simp only [DepthInBounds, not_forall] at h
  obtain ⟨n, hn, hout⟩ := h
  obtain ⟨c, hc, -⟩ := setAny_arity o.switched harity
  rw [config_eq, hc, hn]
  exact dif_neg hout

/-- The configuration made is the one asked for. -/
theorem config_eq_ok_iff : o.config = .ok config ↔ o.Asks config := by
  constructor
  · intro h
    by_cases harity : o.ArityInBounds
    · by_cases hdepth : o.DepthInBounds
      · obtain ⟨config', h', hasks⟩ := config_of_inBounds harity hdepth
        rw [h] at h'
        cases h'; exact hasks
      · rw [config_of_not_depthInBounds harity hdepth] at h; cases h
    · rw [config_of_not_arityInBounds harity] at h; cases h
  · intro h
    obtain ⟨config', h', hasks⟩ := config_of_inBounds h.inBounds.1 h.inBounds.2
    rw [h', hasks.unique h]

/-- A configuration fails for the first of its two bounds that is broken. -/
theorem config_eq_error_iff {e : OutOfBounds} :
    o.config = .error e ↔ (¬ o.ArityInBounds ∧ e = ⟨"max_operator_arity", 0, 24⟩) ∨
      (o.ArityInBounds ∧ ¬ o.DepthInBounds ∧ e = ⟨"max_expression_depth", 1, 1024⟩) := by
  by_cases harity : o.ArityInBounds
  · by_cases hdepth : o.DepthInBounds
    · obtain ⟨config', h', -⟩ := config_of_inBounds harity hdepth
      simp [h', harity, hdepth]
    · simp [config_of_not_depthInBounds harity hdepth, harity, hdepth, eq_comm]
  · simp [config_of_not_arityInBounds harity, harity, eq_comm]

end Options

/-! ### Inputs -/

/-- A program that a command is given: its path, unless it is the standard input, and what is found
there. -/
structure Input where
  path? : Option String
  found : Found

/-- The inputs of a command, in the order in which they are read. -/
def Options.inputs (o : Options) (file : String → Found) (input : ByteArray) : List Input :=
  match o.paths with
  | [] => [⟨none, .bytes input⟩]
  | paths => paths.map fun path => ⟨some path, file path⟩

namespace Input

/-- The input is the UTF-8 form of a text, which is parsed to a program. -/
def ReadAs (config : Config) (i : Input) (p : Program) : Prop :=
  ∃ source : String, i.found = .bytes source.toUTF8 ∧ config.parse source = .ok p

/-- The input cannot be opened, cannot be read, is no UTF-8, or its text is no program; the message
says which. -/
inductive Refused (config : Config) : Input → String → Prop
  | notOpened (path : String) :
      Refused config ⟨some path, .nothing⟩ ("Failed to open " ++ quoted path ++ ".")
  | notRead (path : String) :
      Refused config ⟨some path, .unreadable⟩ ("Failed to read " ++ quoted path ++ ".")
  | notText (path : String) {content : ByteArray}
      (h : ∀ source : String, source.toUTF8 ≠ content) :
      Refused config ⟨some path, .bytes content⟩ ("Failed to read " ++ quoted path ++ ".")
  | inputNotText {content : ByteArray} (h : ∀ source : String, source.toUTF8 ≠ content) :
      Refused config ⟨none, .bytes content⟩ "Failed to read standard input."
  | malformed (path : String) {source m : String}
      (h : Malformed config.maxExpressionDepth source m) :
      Refused config ⟨some path, .bytes source.toUTF8⟩ (path ++ ":" ++ m)
  | inputMalformed {source m : String} (h : Malformed config.maxExpressionDepth source m) :
      Refused config ⟨none, .bytes source.toUTF8⟩ ("<stdin>:" ++ m)

/-- What is wrong with an input that is not read as a program. -/
inductive Fails (config : Config) : Input → SourceFault → Prop
  | notOpened (path : String) : Fails config ⟨some path, .nothing⟩ (.notOpened path)
  | notRead (path : String) : Fails config ⟨some path, .unreadable⟩ (.notRead (some path))
  | notText (path? : Option String) {content : ByteArray}
      (h : ∀ source : String, source.toUTF8 ≠ content) :
      Fails config ⟨path?, .bytes content⟩ (.notRead path?)
  | malformed (path? : Option String) {source : String} {e : SyntaxError}
      (h : config.parse source = .error e) :
      Fails config ⟨path?, .bytes source.toUTF8⟩ (.malformed path? e)

/-- The wording of a refusal, taken literally, is the message of the fault that the input fails
with. -/
theorem refused_iff {config : Config} {i : Input} {m : String} :
    i.Refused config m ↔ ∃ f, i.Fails config f ∧ f.message = m := by
  constructor
  · intro h
    cases h with
    | notOpened path => exact ⟨_, .notOpened path, rfl⟩
    | notRead path => exact ⟨_, .notRead path, rfl⟩
    | notText path h => exact ⟨_, .notText (some path) h, rfl⟩
    | inputNotText h => exact ⟨_, .notText none h, rfl⟩
    | malformed path h =>
        obtain ⟨e, he, rfl⟩ := malformed_iff.mp h
        exact ⟨_, .malformed (some path) he, rfl⟩
    | inputMalformed h =>
        obtain ⟨e, he, rfl⟩ := malformed_iff.mp h
        exact ⟨_, .malformed none he, rfl⟩
  · rintro ⟨f, h, rfl⟩
    cases h with
    | notOpened path => exact .notOpened path
    | notRead path => exact .notRead path
    | notText path? h =>
        cases path? with
        | none => exact .inputNotText h
        | some path => exact .notText path h
    | malformed path? h =>
        have hm := malformed_iff.mpr ⟨_, h, rfl⟩
        cases path? with
        | none => exact .inputMalformed hm
        | some path => exact .malformed path hm

end Input

/-- The text read is the one whose bytes the content holds. -/
theorem decodeText_eq_ok_iff {content : ByteArray} {source : String} :
    decodeText content = .ok source ↔ source.toUTF8 = content := by
  unfold decodeText String.fromUTF8?
  constructor
  · intro h
    split at h
    · next hs =>
        split at hs
        · cases hs; cases h; rfl
        · cases hs
    · cases h
  · rintro rfl
    rw [dif_pos (show source.toUTF8.IsValidUTF8 from source.isValidUTF8)]
    rfl

theorem decodeText_toUTF8 (source : String) : decodeText source.toUTF8 = .ok source :=
  decodeText_eq_ok_iff.mpr rfl

theorem decodeText_eq_error_iff {content : ByteArray} :
    (∃ e, decodeText content = .error e) ↔ ∀ source : String, source.toUTF8 ≠ content := by
  simp only [ne_eq, ← decodeText_eq_ok_iff]
  cases decodeText content <;> simp

variable {config : Config} {p : Program} {f : SourceFault}

/-- A program is read from the content that holds it. -/
theorem readProgramAt_eq_ok_iff {path? : Option String} {content : ByteArray} :
    readProgramAt config path? content = .ok p ↔ Input.ReadAs config ⟨path?, .bytes content⟩ p := by
  unfold readProgramAt
  constructor
  · intro h
    split at h
    · cases h
    · next source hsource =>
        obtain rfl := decodeText_eq_ok_iff.mp hsource
        split at h
        · cases h
        · next q hq => cases h; exact ⟨source, rfl, hq⟩
  · rintro ⟨source, hfound, hparse⟩
    cases hfound
    rw [decodeText_toUTF8]
    dsimp only
    rw [hparse]

/-- Content that holds no program fails with the fault of its first defect. -/
theorem readProgramAt_eq_error_iff {path? : Option String} {content : ByteArray} :
    readProgramAt config path? content = .error f ↔
      Input.Fails config ⟨path?, .bytes content⟩ f := by
  unfold readProgramAt
  constructor
  · intro h
    split at h
    · next e he =>
        cases h
        exact .notText path? (decodeText_eq_error_iff.mp ⟨e, he⟩)
    · next source hsource =>
        obtain rfl := decodeText_eq_ok_iff.mp hsource
        split at h
        · next e he => cases h; exact .malformed path? he
        · cases h
  · intro h
    cases h with
    | notText _ h =>
        obtain ⟨e, he⟩ := decodeText_eq_error_iff.mpr h
        rw [he]
    | malformed _ h =>
        rw [decodeText_toUTF8]
        dsimp only
        rw [h]

variable {file : String → Found} {input : ByteArray}

/-- A program is read from the file that holds it. -/
theorem readFileProgram_eq_ok_iff {path : String} :
    readFileProgram config file path = .ok p ↔ Input.ReadAs config ⟨some path, file path⟩ p := by
  unfold readFileProgram
  cases file path with
  | nothing | unreadable => exact iff_of_false nofun (by rintro ⟨_, ⟨⟩, _⟩)
  | bytes content => exact readProgramAt_eq_ok_iff

/-- A file fails if it is missing or if its content does. -/
theorem readFileProgram_eq_error_iff {path : String} :
    readFileProgram config file path = .error f ↔
      Input.Fails config ⟨some path, file path⟩ f := by
  unfold readFileProgram
  cases file path with
  | nothing => exact ⟨by rintro ⟨⟩; exact .notOpened path, by rintro ⟨⟩; rfl⟩
  | unreadable => exact ⟨by rintro ⟨⟩; exact .notRead path, by rintro ⟨⟩; rfl⟩
  | bytes content => exact readProgramAt_eq_error_iff

namespace Options

variable {o : Options}

/-- All programs are read, and put one behind the other. -/
theorem readPrograms_eq_ok_iff :
    readPrograms config file input o.paths = .ok p ↔
      ∃ parts, List.Forall₂ (Input.ReadAs config) (o.inputs file input) parts ∧
        p = parts.flatten := by
  unfold inputs
  cases o.paths with
  | nil =>
      rw [readPrograms, readProgramAt_eq_ok_iff]
      constructor
      · exact fun h => ⟨[p], .cons h .nil, by simp⟩
      · rintro ⟨_, _ | ⟨h, _ | _⟩, rfl⟩
        simpa using h
  | cons path paths =>
      rw [readPrograms, Except.map_eq_ok]
      · simp only [Except.mapM_eq_ok, readFileProgram_eq_ok_iff, List.forall₂_map_left_iff,
          eq_comm (a := p)]
      · rintro ⟨⟩

/-- The first input in order that is refused is what is reported. -/
theorem readPrograms_eq_error_iff :
    readPrograms config file input o.paths = .error f ↔
      ∃ before i after parts, o.inputs file input = before ++ i :: after ∧
        List.Forall₂ (Input.ReadAs config) before parts ∧ i.Fails config f := by
  unfold inputs
  cases o.paths with
  | nil =>
      rw [readPrograms, readProgramAt_eq_error_iff]
      constructor
      · exact fun h => ⟨[], _, [], [], rfl, .nil, h⟩
      · rintro ⟨before, i, after, parts, hi, -, h⟩
        cases before with
        | nil => cases hi; exact h
        | cons _ before => simp at hi
  | cons path paths =>
      rw [readPrograms, Except.map_eq_error, Except.mapM_eq_error]
      · simp only [readFileProgram_eq_ok_iff, readFileProgram_eq_error_iff]
        constructor
        · rintro ⟨before, path, after, parts, hpaths, hbefore, h⟩
          refine ⟨_, _, _, parts, by rw [hpaths, List.map_append, List.map_cons], ?_, h⟩
          exact List.forall₂_map_left_iff.mpr hbefore
        · rintro ⟨before, i, after, parts, hi, hbefore, h⟩
          obtain ⟨before, rest, hpaths, rfl, hrest⟩ := List.map_eq_append_iff.mp hi
          obtain ⟨path, after, rfl, rfl, rfl⟩ := List.map_eq_cons_iff.mp hrest
          exact ⟨before, path, after, parts, hpaths, List.forall₂_map_left_iff.mp hbefore, h⟩
      · rintro ⟨⟩

/-! ### Attempts -/

/-- The first thing that is wrong with a command: a limit that cannot be set, that on the arity
first, or else the first of its inputs that is refused. -/
inductive Refused (o : Options) (file : String → Found) (input : ByteArray) : String → Prop
  | arity (h : ¬ o.ArityInBounds) :
      Refused o file input "max_operator_arity requires a value between 0 and 24"
  | depth (harity : o.ArityInBounds) (h : ¬ o.DepthInBounds) :
      Refused o file input "max_expression_depth requires a value between 1 and 1024"
  | input {config : Config} (hconfig : o.Asks config) {before after : List Input} {i : Input}
      {parts : List Program} {m : String} (hi : o.inputs file input = before ++ i :: after)
      (hbefore : List.Forall₂ (Input.ReadAs config) before parts) (hm : i.Refused config m) :
      Refused o file input m

/-- Something is wrong with a command: a limit that cannot be set, or an input that is not read as a
program. -/
def AtFault (o : Options) (file : String → Found) (input : ByteArray) : Prop :=
  ¬ o.ArityInBounds ∨ ¬ o.DepthInBounds ∨
    ∃ config, o.Asks config ∧ ∃ i ∈ o.inputs file input, ∀ p, ¬ i.ReadAs config p

/-- An attempt runs all the programs of the inputs one after the other, in one session. -/
theorem attempt_eq_ok_iff {run : Run} :
    o.attempt file input = .ok run ↔ ∃ config parts, o.Asks config ∧
      List.Forall₂ (Input.ReadAs config) (o.inputs file input) parts ∧
      run = ({ config } : Session).run parts.flatten := by
  unfold attempt
  constructor
  · intro h
    split at h
    · cases h
    · next config hconfig =>
        split at h
        · cases h
        · next p hp =>
            cases h
            obtain ⟨parts, hparts, rfl⟩ := readPrograms_eq_ok_iff.mp hp
            exact ⟨config, parts, config_eq_ok_iff.mp hconfig, hparts, rfl⟩
  · rintro ⟨config, parts, hasks, hparts, rfl⟩
    rw [config_eq_ok_iff.mpr hasks]
    dsimp only
    rw [readPrograms_eq_ok_iff.mpr ⟨parts, hparts, rfl⟩]

/-- An attempt fails with the message that the first refusal calls for. -/
theorem attempt_eq_error_iff {m : String} :
    o.attempt file input = .error m ↔ o.Refused file input m := by
  -- The bounds in the messages are those of the settings.
  have harity : OutOfBounds.message ⟨"max_operator_arity", 0, 24⟩ =
    "max_operator_arity requires a value between 0 and 24" := by decide +kernel
  have hdepth : OutOfBounds.message ⟨"max_expression_depth", 1, 1024⟩ =
    "max_expression_depth requires a value between 1 and 1024" := by decide +kernel
  unfold attempt
  constructor
  · intro h
    split at h
    · next e he =>
        cases h
        rcases config_eq_error_iff.mp he with ⟨hout, rfl⟩ | ⟨hin, hout, rfl⟩
        · rw [harity]; exact .arity hout
        · rw [hdepth]; exact .depth hin hout
    · next config hconfig =>
        split at h
        · next f hf =>
            cases h
            obtain ⟨before, i, after, parts, hi, hbefore, hf⟩ := readPrograms_eq_error_iff.mp hf
            exact .input (config_eq_ok_iff.mp hconfig) hi hbefore
              (Input.refused_iff.mpr ⟨f, hf, rfl⟩)
        · cases h
  · intro h
    cases h with
    | arity hout => rw [config_of_not_arityInBounds hout, ← harity]
    | depth hin hout => rw [config_of_not_depthInBounds hin hout, ← hdepth]
    | input hasks hi hbefore hm =>
        obtain ⟨f, hf, rfl⟩ := Input.refused_iff.mp hm
        rw [config_eq_ok_iff.mpr hasks]
        dsimp only
        rw [readPrograms_eq_error_iff.mpr ⟨_, _, _, _, hi, hbefore, hf⟩]

/-- What is wrong is reported, and nothing else is. -/
theorem atFault_iff_exists_refused :
    o.AtFault file input ↔ ∃ m, o.Refused file input m := by
  constructor
  · intro h
    simp only [← attempt_eq_error_iff]
    cases hrun : o.attempt file input with
    | error m => exact ⟨m, rfl⟩
    | ok run =>
        obtain ⟨config, parts, hasks, hparts, -⟩ := attempt_eq_ok_iff.mp hrun
        rcases h with hout | hout | ⟨config', hasks', i, hi, hnone⟩
        · exact absurd hasks.inBounds.1 hout
        · exact absurd hasks.inBounds.2 hout
        · obtain ⟨p, -, hp⟩ := exists_of_forall₂ hparts hi
          exact absurd (hasks.unique hasks' ▸ hp) (hnone p)
  · rintro ⟨m, h⟩
    have herror := attempt_eq_error_iff.mpr h
    by_contra hfault
    simp only [AtFault, not_or, not_not, not_exists, not_and, not_forall] at hfault
    obtain ⟨harity, hdepth, hread⟩ := hfault
    obtain ⟨config, -, hasks⟩ := config_of_inBounds harity hdepth
    obtain ⟨parts, hparts, -⟩ := exists_forall₂ (P := fun _ => True) fun i hi =>
      (hread config hasks i hi).imp fun p hp => ⟨hp, trivial⟩
    rw [attempt_eq_ok_iff.mpr ⟨config, parts, hasks, hparts, rfl⟩] at herror
    cases herror

end Options

end PropBench
