import PropBench.Config

/-!
# Command line — Options

Reading the arguments.  Options begin with two dashes; a value follows in the same argument
behind an equals sign, or in the next argument, which then does not begin with a dash unless it
is a dash alone.  `-v` may be repeated, also within one argument.  Two dashes alone end the
options, and whatever is no option is a path.

* `Options.ofArgs` is interrupted if the arguments are misused: an option that does not exist,
  one without its value or with one it does not take, a second one of the same name, a value that
  is none of the option's, or an empty path.  It is also interrupted where a page about the command
  itself is asked for; what comes behind is not read.
* `Options.config` makes the settings the options ask for; its error is the first bounds that one
  is outside of.
-/

namespace PropBench

/-- How results are written. -/
inductive Format where
  | text
  | json
  deriving DecidableEq, Repr, Inhabited

/-- The format of a name. -/
def Format.ofName? : String → Option Format
  | "text" => some .text
  | "json" => some .json
  | _ => none

/-- The options and paths of a command line. -/
structure Options where
  haltOnError : Bool := false
  maxArity? : Option Nat := none
  maxDepth? : Option Nat := none
  traceLexemes : Bool := false
  format? : Option Format := none
  noColour : Bool := false
  verbosity : Nat := 0
  markdownHelp : Bool := false
  paths : List String := []
  deriving DecidableEq, Repr, Inhabited

/-- What a command prints about itself. -/
inductive Page where
  /-- The options, each on a line. -/
  | summary
  /-- The options with all that is known of them. -/
  | help
  /-- The name and the version. -/
  | version
  /-- The options in Markdown. -/
  | reference
  deriving DecidableEq, Repr, Inhabited

/-- The page that an option asks for. -/
def Page.ofName? : String → Option Page
  | "help" => some .help
  | "version" => some .version
  | _ => none

/-- The page that an option of one letter asks for. -/
def Page.ofLetter? : Char → Option Page
  | 'h' => some .summary
  | 'V' => some .version
  | _ => none

/-- Why arguments are not read to their end. -/
inductive Interruption where
  /-- The arguments are misused. -/
  | misuse
  /-- A page is asked for. -/
  | asked (page : Page)
  deriving DecidableEq, Repr, Inhabited

/-- The number that decimal digits spell, with or without a plus in front, if it fits in 64
bits. -/
def readCount? (s : String) : Option Nat :=
  let digits :=
    match s.toList with
    | '+' :: cs => cs
    | cs => cs
  if digits.isEmpty || !digits.all Char.isDigit then
    none
  else
    let n := digits.foldl (fun n c => 10 * n + (c.toNat - '0'.toNat)) 0
    if n < UInt64.size then some n else none

/-- The name and the value of an option without its dashes. -/
def splitOption (cs : List Char) : String × Option String :=
  match cs.dropWhile (· != '=') with
  | [] => (String.ofList cs, none)
  | _ :: value => (String.ofList (cs.takeWhile (· != '=')), some (String.ofList value))

namespace Options

/-- Sets a flag that takes no value and is given once. -/
def flag? (o : Options) : String → Option Options
  | "halt-on-error" => if o.haltOnError then none else some { o with haltOnError := true }
  | "trace-lexemes" => if o.traceLexemes then none else some { o with traceLexemes := true }
  | "no-colour" => if o.noColour then none else some { o with noColour := true }
  | "verbose" => some { o with verbosity := o.verbosity + 1 }
  | "markdown-help" => if o.markdownHelp then none else some { o with markdownHelp := true }
  | _ => none

/-- An option that takes a value. -/
def takesValue (name : String) : Bool :=
  name == "max-arity" || name == "max-depth" || name == "format"

/-- Sets an option that takes a value and is given once. -/
def value? (o : Options) (name value : String) : Option Options :=
  match name with
  | "max-arity" =>
    if o.maxArity?.isSome then none
    else (readCount? value).map fun n => { o with maxArity? := some n }
  | "max-depth" =>
    if o.maxDepth?.isSome then none
    else (readCount? value).map fun n => { o with maxDepth? := some n }
  | "format" =>
    if o.format?.isSome then none
    else (Format.ofName? value).map fun f => { o with format? := some f }
  | _ => none

/-- Adds a path. -/
def path? (o : Options) (path : String) : Option Options :=
  if path.isEmpty then none else some { o with paths := o.paths ++ [path] }

/-- Adds paths. -/
def paths? (o : Options) (paths : List String) : Option Options := paths.foldlM path? o

/-- An argument may be the value of the option in front of it. -/
def isValue (arg : String) : Bool :=
  match arg.toList with
  | ['-'] => true
  | '-' :: _ => false
  | _ => true

/-- Reads the letters behind a single dash. -/
def letters (o : Options) : List Char → Except Interruption Options
  | [] => .ok o
  | 'v' :: cs => letters { o with verbosity := o.verbosity + 1 } cs
  | c :: _ => .error (((Page.ofLetter? c).map .asked).getD .misuse)

/-- What is set, unless the arguments are misused. -/
def orMisuse : Option Options → Except Interruption Options
  | some o => .ok o
  | none => .error .misuse

/-- Reads arguments, given the options read before them. -/
def read (o : Options) : List String → Except Interruption Options
  | [] => .ok o
  | arg :: args =>
    match arg.toList with
    | ['-', '-'] => orMisuse (o.paths? args)
    | '-' :: '-' :: cs =>
      match splitOption cs with
      | (name, some value) => (orMisuse (o.value? name value)).bind fun o => read o args
      | (name, none) =>
        match Page.ofName? name with
        | some page => .error (.asked page)
        | none =>
          if takesValue name then
            match args with
            | value :: args =>
              if isValue value then
                (orMisuse (o.value? name value)).bind fun o => read o args
              else
                .error .misuse
            | [] => .error .misuse
          else
            (orMisuse (o.flag? name)).bind fun o => read o args
    | ['-'] => (orMisuse (o.path? arg)).bind fun o => read o args
    | '-' :: cs => (o.letters cs).bind fun o => read o args
    | _ => (orMisuse (o.path? arg)).bind fun o => read o args

/-- The options and paths that arguments spell. -/
def ofArgs (args : List String) : Except Interruption Options := read {} args

/-- The settings that the options ask for, in the order in which they are made. -/
def settings (o : Options) : List Setting :=
  [.haltOnError o.haltOnError, .traceLexemes o.traceLexemes] ++
    o.maxArity?.toList.map .maxOperatorArity ++ o.maxDepth?.toList.map .maxExpressionDepth

/-- The configuration that the options ask for. -/
def config (o : Options) : Except OutOfBounds Config := o.settings.foldlM Config.set default

/-- The format of the results; text if none is asked for. -/
def format (o : Options) : Format := o.format?.getD .text

end Options

end PropBench
