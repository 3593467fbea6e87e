import PropBench.Proofs.CommandLine.Refusal
import PropBench.Proofs.Report.Line
import PropBench.Proofs.Session.Turns

/-!
# Proofs — Command line — Report

What a command reports of its run.

* `textLines`: the lines of a text, one for each result and one more if the program is halted.
* `Options.Reports`: the code and what is written, against the results of the statements in turn.
* `command_faithful`: a command prints its reference if it is asked to.  Otherwise it is refused for
  the first thing that is wrong with it, or else reports its run.
* `reference_and_end_reports`: where a report has no line and no column, and where a limit is not
  looked at.
-/

namespace PropBench

/-! ### Lines -/

/-- The lines of a text about some results: one for each, and one that says where failures halted
the program. -/
def textLines (colours halt : Bool) (rs : List Result) : List String :=
  (cutAtFailure halt rs).map (Result.line colours) ++
    ((haltedAt? halt rs).map fun r => "Halted after statement " ++ toString r.index).toList

/-- Lines, each with a line feed behind it. -/
def unlines (ls : List String) : String := String.join (ls.map (· ++ "\n"))

/-- A statement shows as one line. -/
theorem filterMap_line?_events (colours : Bool) (r : Result) :
    r.events.filterMap (Event.line? colours) = [r.line colours] := by
  have hnames : ∀ (i : Nat) (space : Namespace) (names : List String),
      (names.map (Event.declared i space)).filterMap (Event.line? colours) = [] := by
    simp [List.filterMap_map, Function.comp_def, Event.line?]
  unfold Result.events
  split
  · rw [List.filterMap_append, hnames]; rfl
  · rfl

/-- A run shows as the lines of its results, and a line for where it was halted. -/
theorem filterMap_line?_run (colours : Bool) (run : Run) :
    run.events.filterMap (Event.line? colours) =
      run.results.map (Result.line colours) ++
        (run.halted?.map fun i => "Halted after statement " ++ toString i).toList := by
  have hhalted : (run.halted?.map Event.halted).toList.filterMap (Event.line? colours) =
      (run.halted?.map fun i => "Halted after statement " ++ toString i).toList := by
    cases run.halted? <;> rfl
  rw [Run.events, List.filterMap_append, List.filterMap_append, hhalted, List.filterMap_flatMap]
  simp only [filterMap_line?_events, ← List.map_eq_flatMap]
  exact List.append_nil _

/-- The lines of a run are those called for by the turns of its statements. -/
theorem lines_run (colours : Bool) (s : Session) (p : Program) :
    (s.run p).events.filterMap (Event.line? colours) =
      textLines colours s.config.haltOnError (s.turns p) := by
  rw [filterMap_line?_run, s.results_run, s.halted?_run, Option.map_map]
  rfl

/-- Lines over names without breaks are without breaks. -/
theorem oneLine_textLines {rs : List Result} (h : ∀ r ∈ rs, r.Named OneLine)
    (colours halt : Bool) : ∀ l ∈ textLines colours halt rs, OneLine l := by
  intro l hl
  rcases List.mem_append.mp hl with hl | hl
  · obtain ⟨r, hr, rfl⟩ := List.mem_map.mp hl
    exact (h r (cutAtFailure_subset halt rs hr)).line_oneLine colours
  · obtain ⟨r, -, rfl⟩ := Option.map_eq_some_iff.mp (Option.mem_toList.mp hl)
    have hhalted : OneLine "Halted after statement " := by decide +kernel
    exact OneLine.append_iff.mpr ⟨hhalted, OneLine.nat r.index⟩

/-! ### Reports -/

/-- What a command writes about the results of its statements, each in its turn, and its exit
code. -/
structure Options.Reports (o : Options) (rs : List Result) (c : CommandResult) : Prop where
  code : c.code = if ∃ r ∈ cutAtFailure o.haltOnError rs, r.failed = true then 1 else 0
  errors : c.errors = ""
  text : o.format = .text → c.output = unlines (textLines (!o.noColour) o.haltOnError rs)

/-- The result of a run is the report that the options call for. -/
theorem Options.reports_ofRun {o : Options} {config : Config} (h : o.Asks config) (p : Program) :
    o.Reports (({ config } : Session).turns p)
      (.ofRun o.format (!o.noColour) (({ config } : Session).run p)) := by
  constructor
  case code =>
    rw [← h.haltOnError, ← Session.results_run { config } p]
    exact if_congr List.any_eq_true rfl rfl
  case errors => rfl
  case text =>
    intro hformat
    rw [← h.haltOnError, ← lines_run (!o.noColour) { config } p, hformat]
    rfl

/-- The statements of inputs name what an identifier or a keyword may be. -/
theorem named_of_readAs {config : Config} {inputs : List Input} {parts : List Program}
    (h : List.Forall₂ (Input.ReadAs config) inputs parts) :
    ∀ statement ∈ parts.flatten, statement.Named OneLine := by
  intro statement hmem
  obtain ⟨p, hp, hmem⟩ := List.mem_flatten.mp hmem
  obtain ⟨i, -, source, -, hparse⟩ := exists_of_forall₂ h.flip hp
  exact named_of_parseProgram hparse (fun _ => OneLine.of_isIdentifier) OneLine.keyword statement
    hmem

/-- A line begins with the number of its statement and with what kind of statement it is. -/
theorem Result.line_begins (colours : Bool) (r : Result) :
    ("[" ++ toString r.index ++ "] " ++ r.kind.text ++ ": ").toList <+:
      (r.line colours).toList := by
  unfold Result.line
  exact ⟨_, (String.toList_append ..).symm⟩

section Commands

variable {manual : Page → String} {args : List String} {o : Options}

/-- The reference is shown before anything is looked at that the other options ask for. -/
theorem command_of_reference (ho : Options.ofArgs args = .ok o) (hpage : o.markdownHelp = true)
    (file : String → Found) (input : ByteArray) :
    command manual args file input = .page (manual .reference) := by
  simp only [command, ho, hpage, if_true]

/-- Without the reference the command is an attempt, told as a refusal or a run. -/
theorem command_eq (ho : Options.ofArgs args = .ok o) (hpage : o.markdownHelp = false)
    (file : String → Found) (input : ByteArray) :
    command manual args file input =
      match o.attempt file input with
      | .error m => .refusal m
      | .ok run => .ofRun o.format (!o.noColour) run := by
  cases hrun : o.attempt file input <;> simp [command, ho, hpage, hrun]

/-- The exit code of a command, whatever its format. -/
def codeOf : Except String Run → Nat
  | .error _ => 2
  | .ok run => if run.results.any Result.failed then 1 else 0

/-- Without the reference the code is that of the attempt. -/
theorem code_command (ho : Options.ofArgs args = .ok o) (hpage : o.markdownHelp = false)
    (file : String → Found) (input : ByteArray) :
    (command manual args file input).code = codeOf (o.attempt file input) := by
  rw [command_eq ho hpage]
  cases o.attempt file input <;> rfl

/-- Code two is kept for refusals. -/
theorem codeOf_eq_two_iff {r : Except String Run} : codeOf r = 2 ↔ ∃ m, r = .error m := by
  cases r with
  | error m => exact iff_of_true rfl ⟨m, rfl⟩
  | ok run =>
      refine iff_of_false ?_ nofun
      rw [codeOf]
      split <;> decide

/-- **A command reports its run faithfully.**  If its reference is asked for, that is printed and
nothing else happens.  Otherwise the exit code is 2 if something is wrong with a limit or an input;
then nothing is run, and the message about the first such thing is all that is written, with the
line and the column in the input where there is a place.  If nothing is wrong, all inputs are run as
one program in one fresh session, and the exit code says whether a statement failed.  A text has one
line for each statement, numbered from zero, up to the first failure and one line about it if that
halts the program.  The exit code does not depend on the format. -/
theorem command_faithful (manual : Page → String) {args : List String} {o : Options}
    (ho : Options.ofArgs args = .ok o) (file : String → Found) (input : ByteArray) :
    (o.markdownHelp = true → command manual args file input = ⟨0, manual .reference, ""⟩) ∧
    (o.markdownHelp = false →
      ((command manual args file input).code = 2 ↔ o.AtFault file input) ∧
      (o.AtFault file input ↔ ∃ m, o.Refused file input m) ∧
      (∀ m, o.Refused file input m →
        o.attempt file input = .error m ∧
          command manual args file input = ⟨2, "", m ++ "\n"⟩) ∧
      (¬ o.AtFault file input → ∃ config parts run, o.Asks config ∧
        List.Forall₂ (Input.ReadAs config) (o.inputs file input) parts ∧
        o.attempt file input = .ok run ∧
        let rs := ({ config } : Session).turns parts.flatten
        run.results = cutAtFailure o.haltOnError rs ∧
          rs.map Result.index = List.range parts.flatten.length ∧
          rs.map Result.kind = parts.flatten.map Statement.kind ∧
          o.Reports rs (command manual args file input) ∧
          (∀ r ∈ rs, ("[" ++ toString r.index ++ "] " ++ r.kind.text ++ ": ").toList <+:
            (r.line (!o.noColour)).toList) ∧
          ∀ l ∈ textLines (!o.noColour) o.haltOnError rs, OneLine l) ∧
      ∀ args' format?, Options.ofArgs args' = .ok { o with format? } →
        (command manual args' file input).code = (command manual args file input).code) := by
  refine ⟨fun hpage => command_of_reference ho hpage file input, fun hpage =>
    ⟨?code, Options.atFault_iff_exists_refused, fun m hm => ?refused, fun hfault => ?run,
      fun args' format? ho' => ?format⟩⟩
  case code =>
    rw [code_command ho hpage, codeOf_eq_two_iff, Options.atFault_iff_exists_refused]
    exact exists_congr fun _ => Options.attempt_eq_error_iff
  case refused =>
    have herror := Options.attempt_eq_error_iff.mpr hm
    refine ⟨herror, ?_⟩
    rw [command_eq ho hpage, herror]
    rfl
  case run =>
    cases hrun : o.attempt file input with
    | error m =>
        have hm := Options.attempt_eq_error_iff.mp hrun
        exact absurd (Options.atFault_iff_exists_refused.mpr ⟨m, hm⟩) hfault
    | ok run =>
        obtain ⟨config, parts, hasks, hparts, rfl⟩ := Options.attempt_eq_ok_iff.mp hrun
        -- The names that are told were read, so they are identifiers and break no line.
        have hnamed := Session.named_turns (.fresh config) .empty (named_of_readAs hparts)
        refine ⟨config, parts, _, hasks, hparts, rfl, ?_, ?_, Session.kind_turns _ _, ?_,
          fun r _ => r.line_begins _, oneLine_textLines hnamed _ _⟩
        · rw [← hasks.haltOnError]
          exact Session.results_run _ _
        · rw [Session.index_turns, List.range_eq_range']
        · rw [command_eq ho hpage, hrun]
          exact Options.reports_ofRun hasks _
  case format =>
    rw [code_command ho hpage, code_command ho' hpage]
    rfl

/-- Two files, the first of which declares a variable twice. -/
def sampleFile (path : String) : Found :=
  if path = "a.prop" then
    .bytes "DEFINE VARIABLE p; DEFINE VARIABLE p;".toUTF8
  else
    .bytes "DEFINE VARIABLE q;".toUTF8

/-- Two files, the second of which lacks a name on its second line. -/
def malformedFile (path : String) : Found :=
  if path = "a.prop" then
    .bytes "DEFINE VARIABLE p;".toUTF8
  else
    .bytes "DEFINE VARIABLE q;\nEVALUATE ;".toUTF8

/-- The second file of the sample is not run, in either format; where the second file is malformed,
its own line and column are reported. -/
theorem sample_report :
    let manual : Page → String := fun _ => "reference"
    let args := ["--halt-on-error", "--no-colour", "a.prop", "b.prop"]
    let o : Options := { haltOnError := true, noColour := true, paths := ["a.prop", "b.prop"] }
    Options.ofArgs args = .ok o ∧
      (¬ o.AtFault sampleFile .empty ∧
        (command manual args sampleFile .empty).output =
          "[0] DEFINE VARIABLE: declared variable p\n" ++
          "[1] DEFINE VARIABLE: error: variable 'p' is already declared\n" ++
          "Halted after statement 1\n" ∧
        (command manual ("--format=json" :: args) sampleFile .empty).code = 1) ∧
      command manual args malformedFile .empty =
        ⟨2, "", "b.prop:2:10: expected a formula name, found ';'\n"⟩ := by
  intro manual args o
  have ho : Options.ofArgs args = .ok o := by decide +kernel
  have hjson : Options.ofArgs ("--format=json" :: args) = .ok { o with format? := some .json } := by
    decide +kernel
  have hcode : (command manual args sampleFile .empty).code = 1 := by decide +kernel
  obtain ⟨htwo, -, -, -, hformat⟩ := (command_faithful manual ho sampleFile .empty).2 rfl
  obtain ⟨-, -, hrefused, -⟩ := (command_faithful manual ho malformedFile .empty).2 rfl
  refine ⟨ho, ⟨fun hfault => ?_, by decide +kernel, (hformat _ _ hjson).trans hcode⟩, ?_⟩
  · have := htwo.mpr hfault
    omega
  · have hasks : o.Asks { haltOnError := true } := ⟨rfl, rfl, rfl, rfl⟩
    have hfirst : o.inputs malformedFile .empty =
        [⟨some "a.prop", .bytes "DEFINE VARIABLE p;".toUTF8⟩] ++
          ⟨some "b.prop", .bytes "DEFINE VARIABLE q;\nEVALUATE ;".toUTF8⟩ :: [] := by
      simp [Options.inputs, malformedFile, o]
    have hread : Input.ReadAs { haltOnError := true }
        ⟨some "a.prop", .bytes "DEFINE VARIABLE p;".toUTF8⟩ [.defineVariables ["p"]] :=
      ⟨_, rfl, by decide +kernel⟩
    have hsource : "DEFINE VARIABLE q;\nEVALUATE ;".toList =
        "DEFINE VARIABLE q;\nEVALUATE ".toList ++ [';'] := by decide +kernel
    have herror : parseProgram 256 "DEFINE VARIABLE q;\nEVALUATE ;" = .error (.unexpected
        (.after .start "DEFINE VARIABLE q;\nEVALUATE ".toList) .formulaName
        (.symbol .semicolon)) := by decide +kernel
    have hcommand := (hrefused _ (.input hasks hfirst (.cons hread .nil)
      (.malformed "b.prop" (.unexpected hsource (.symbol .semicolon []) herror)))).2
    have hmessage : "b.prop" ++ ":" ++ messageAt "DEFINE VARIABLE q;\nEVALUATE ".toList
        ("expected " ++ Expectation.formulaName.text ++ ", found " ++
          (Lexeme.symbol .semicolon).description) ++ "\n" =
        "b.prop:2:10: expected a formula name, found ';'\n" := by decide +kernel
    exact hcommand.trans (congrArg (CommandResult.mk 2 "") hmessage)

/-- The reference is printed although a limit cannot be set, and an input that ends too early is
reported with neither a line nor a column. -/
theorem reference_and_end_reports :
    let manual : Page → String := fun _ => "reference"
    let args := ["--markdown-help", "--max-arity", "99"]
    let o : Options := { markdownHelp := true, maxArity? := some 99 }
    let m := "unexpected end of input, expected VARIABLE, FORMULA, VALUATION, OPERATOR, or OPSET"
    (Options.ofArgs args = .ok o ∧ o.AtFault (fun _ => .nothing) .empty ∧
      command manual args (fun _ => .nothing) .empty = ⟨0, "reference", ""⟩) ∧
    Options.ofArgs [] = .ok {} ∧
      command manual [] (fun _ => .nothing) "DEFINE".toUTF8 = ⟨2, "", "<stdin>:" ++ m ++ "\n"⟩ ∧
      ∀ before words, m ≠ messageAt before words := by
  intro manual args o m
  have hout : ¬ o.ArityInBounds := fun h => absurd (h 99 rfl) (by decide)
  have hhead : 'u' ∈ m.toList.head? := by decide +kernel
  exact ⟨⟨by decide +kernel, .inl hout, by decide +kernel⟩, by decide +kernel, by decide +kernel,
    ne_messageAt hhead rfl⟩

end Commands

end PropBench
