import TestCost.Options.Basic

/-!
# Command lines

A command line is a list of arguments. `--name value` and `--name=value`
give a setting its value, `--name` turns a switch on, `--` ends the
options, and everything else is an entry. Only the class path may be given
more than once.

A value that follows its option as an argument of its own is held back
until the next argument is known to be one that the grammar has. So an
unknown option is told of before a value right in front of it that cannot
be read.

## Main definitions

* `Options.ofArguments` — the options that arguments stand for.
-/

namespace TestCost

/-- A command line that cannot be followed. -/
inductive UsageFault where
  | helpAsked
  | versionAsked
  /-- An option is given twice, or together with one that excludes it. -/
  | conflict
  | unknownArgument
  /-- A switch is given a value. -/
  | unexpectedValue
  /-- A value is missing, or is none of those that are allowed. -/
  | invalidValue
  /-- A value is not a number, or one out of range. -/
  | badNumber
  deriving DecidableEq

/-- An option that takes a value. -/
inductive Setting where
  | classpath
  | printDepth
  | minCost
  | whitelist
  | complexityWeight
  | globalWeight
  | maxExcellentCost
  | maxAcceptableCost
  | format
  | output
  deriving DecidableEq

/-- An option that takes none. -/
inductive Switch where
  | quiet
  | verbose
  | timing
  deriving DecidableEq

/-- What a name after two dashes stands for. -/
inductive OptionName where
  | setting (s : Setting)
  | switch (s : Switch)
  | help
  | version
  deriving DecidableEq

def OptionName.ofText? : String → Option OptionName
  | "classpath" | "cp" => some (setting .classpath)
  | "print-depth" => some (setting .printDepth)
  | "min-cost" => some (setting .minCost)
  | "whitelist" => some (setting .whitelist)
  | "cyclomatic-weight" => some (setting .complexityWeight)
  | "global-weight" => some (setting .globalWeight)
  | "max-excellent-cost" => some (setting .maxExcellentCost)
  | "max-acceptable-cost" => some (setting .maxAcceptableCost)
  | "format" => some (setting .format)
  | "output" => some (setting .output)
  | "quiet" => some (switch .quiet)
  | "verbose" => some (switch .verbose)
  | "timing" => some (switch .timing)
  | "help" => some help
  | "version" => some version
  | _ => none

/-! ## Values -/

/-- The integer below a limit that a value is. -/
def boundedNatural (limit : Nat) (value : Option Int) : Except UsageFault Nat :=
  match value with
  | some n => if 0 ≤ n ∧ n < limit then .ok n.toNat else .error .badNumber
  | none => .error .badNumber

/-- A cost. -/
def costValue (value : String) : Except UsageFault Nat :=
  boundedNatural (Nat.pow 2 64) ((Decimal.natural? value.toList).map Int.ofNat)

/-- A number of levels. -/
def depthValue (value : String) : Except UsageFault Nat :=
  boundedNatural (Nat.pow 2 32) (Decimal.integer? value.toList)

/-- A weight, of any size. -/
def weightValue (value : String) : Except UsageFault Float :=
  match Decimal.toFloat? value with
  | some weight => .ok weight
  | none => .error .badNumber

/-- Options with a setting given a value. -/
def Options.set (o : Options) (setting : Setting) (value : String) :
    Except UsageFault Options :=
  match setting with
  | .classpath => .ok { o with classpath := o.classpath ++ [value] }
  | .printDepth => (depthValue value).map fun n => { o with printDepth := n }
  | .minCost => (costValue value).map fun n => { o with minCost := n }
  | .whitelist => .ok { o with whitelist := some value }
  | .complexityWeight =>
    (weightValue value).map fun w => { o with complexityWeight := w }
  | .globalWeight =>
    (weightValue value).map fun w => { o with globalWeight := w }
  | .maxExcellentCost =>
    (costValue value).map fun n => { o with maxExcellentCost := n }
  | .maxAcceptableCost =>
    (costValue value).map fun n => { o with maxAcceptableCost := n }
  | .format =>
    match ReportFormat.ofName? value with
    | some format => .ok { o with format }
    | none => .error .invalidValue
  | .output =>
    if value.isEmpty then .error .invalidValue
    else .ok { o with output := some value }

/-- Options with a switch turned on. -/
def Options.turnOn (o : Options) : Switch → Options
  | .quiet => { o with quiet := true }
  | .verbose => { o with verbose := true }
  | .timing => { o with timing := true }

/-! ## Arguments -/

/-- An argument by its form. -/
inductive Argument where
  /-- Two dashes, a name and perhaps a value. -/
  | long (name : String) (value : Option String)
  /-- One dash and a letter; what follows the letter is not looked at. -/
  | short (letter : Char)
  | plain (text : String)
  deriving DecidableEq

/-- The form of an argument; a single dash is a plain one. -/
def Argument.ofText (text : String) : Argument :=
  match text.toList with
  | '-' :: '-' :: rest =>
    let name := rest.takeWhile (· ≠ '=')
    let value := match rest.dropWhile (· ≠ '=') with
      | [] => none
      | _ :: value => some (String.ofList value)
    long (String.ofList name) value
  | '-' :: letter :: _ => short letter
  | _ => plain text

/-- A setting whose value was not on the same argument. -/
inductive Pending where
  /-- The value is still to come. -/
  | awaiting (setting : Setting)
  /-- The value has come and is not looked at yet. -/
  | holding (setting : Setting) (value : String)
  deriving DecidableEq

/-- A command line read in part. -/
structure CommandReader where
  options : Options := {}
  /-- Options that may not be given again. -/
  given : List OptionName := []
  pending : Option Pending := none

namespace CommandReader

/-- Record that an option is given; all but the class path only once. -/
def give (r : CommandReader) (name : OptionName) :
    Except UsageFault CommandReader :=
  if name = .setting .classpath then .ok r
  else if name ∈ r.given then .error .conflict
  else .ok { r with given := name :: r.given }

/-- Give a setting its value. -/
def assign (r : CommandReader) (setting : Setting) (value : String) :
    Except UsageFault CommandReader := do
  let r ← r.give (.setting setting)
  let options ← r.options.set setting value
  return { r with options }

/-- Look at the value that was held back. -/
def settle (r : CommandReader) : Except UsageFault CommandReader :=
  match r.pending with
  | none => .ok r
  | some (.awaiting _) => .error .invalidValue
  | some (.holding setting value) =>
    { r with pending := none }.assign setting value

/-- Take an option. -/
def takeOption (r : CommandReader) (name : OptionName) (value : Option String) :
    Except UsageFault CommandReader :=
  match name, value with
  | .setting setting, some value => do (← r.settle).assign setting value
  | .setting setting, none =>
    do return { ← r.settle with pending := some (.awaiting setting) }
  | _, some _ => .error .unexpectedValue
  | .switch switch, none => do
    let r ← (← r.settle).give name
    return { r with options := r.options.turnOn switch }
  | .help, none => do let _ ← r.settle; .error .helpAsked
  | .version, none => do let _ ← r.settle; .error .versionAsked

/-- Take entries. -/
def takeEntries (r : CommandReader) (entries : List String) : CommandReader :=
  { r with
    options := { r.options with entries := r.options.entries ++ entries } }

/-- Take one argument in front of the end of options. -/
def take (r : CommandReader) (argument : Argument) :
    Except UsageFault CommandReader :=
  match argument with
  | .long name value =>
    match OptionName.ofText? name with
    | some name => r.takeOption name value
    | none => .error .unknownArgument
  | .short letter =>
    if letter = 'h' then r.takeOption .help none
    else if letter = 'V' then r.takeOption .version none
    else .error .unknownArgument
  | .plain text =>
    match r.pending with
    | some (.awaiting setting) =>
      .ok { r with pending := some (.holding setting text) }
    | _ => do return (← r.settle).takeEntries [text]

/-- Take all arguments. -/
def takeAll (r : CommandReader) : List String → Except UsageFault CommandReader
  | [] => r.settle
  | text :: rest => do
    if text = "--" then return (← r.settle).takeEntries rest
    (← r.take (Argument.ofText text)).takeAll rest

end CommandReader

/-- The options that arguments stand for. -/
def Options.ofArguments (arguments : List String) :
    Except UsageFault Options := do
  let options := (← CommandReader.takeAll {} arguments).options
  if options.quiet && options.verbose then throw .conflict
  return options

end TestCost
