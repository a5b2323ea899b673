import TestCost.Fault

/-!
# The log of a run

What a run has to say besides its report. Events are kept as values, in
the order in which they arise; whether an event is shown is decided by who
shows it, from its level.
-/

namespace TestCost

/-- How much an event matters. -/
inductive LogLevel where
  | error
  | warn
  | info
  | debug
  deriving DecidableEq

def LogLevel.text : LogLevel → String
  | error => "ERROR"
  | warn => "WARN"
  | info => "INFO"
  | debug => "DEBUG"

/-- Something worth telling about a run. -/
inductive LogEvent where
  /-- A root that a run was told to search is not there. -/
  | rootMissing (entry : String)
  | analysingClasses (count : Nat)
  | decodedClass (name : String) (methods : Nat)
  | analysingMethod (fullName : String) (locals : Nat)
  | computedCost (name : String) (complexity globals : Nat)
  /-- A class that the analysed one calls is not there. -/
  | dependencyMissing (analysed missing : String)
  /-- A class that the analysed one calls cannot be loaded. -/
  | dependencyBroken (analysed broken : String) (fault : LoadFault)
  /-- A class is left out of the report. -/
  | skippedClass (name : String) (fault : LoadFault)

namespace LogEvent

def level : LogEvent → LogLevel
  | skippedClass .. => .error
  | rootMissing .. | dependencyMissing .. | dependencyBroken .. => .warn
  | analysingClasses .. => .info
  | decodedClass .. | analysingMethod .. | computedCost .. => .debug

/-- The event without its level. -/
def message : LogEvent → String
  | rootMissing entry => "classpath entry does not exist entry=" ++ entry
  | analysingClasses count => "analysing classes classes=" ++ toString count
  | decodedClass name methods =>
    "decoded class class=" ++ name ++ " methods=" ++ toString methods
  | analysingMethod fullName locals =>
    "analysing method method=" ++ fullName ++ " locals=" ++ toString locals
  | computedCost name complexity globals =>
    "computed class cost class=" ++ name ++ " complexity=" ++
      toString complexity
      ++ " global=" ++ toString globals
  | dependencyMissing analysed missing =>
    since analysed missing ++ "was not found"
  | dependencyBroken analysed broken fault =>
    since analysed broken ++ "failed to load: " ++ fault.message
  | skippedClass name fault =>
    "skipping class " ++ name ++ ": " ++ fault.message
where
  since (analysed other : String) : String :=
    "can not fully analyze class '" ++ analysed ++ "' since class '" ++
      other ++ "' "

/-- The event as it is shown to a reader. -/
def text (e : LogEvent) : String := e.level.text ++ " " ++ e.message

end LogEvent

end TestCost
