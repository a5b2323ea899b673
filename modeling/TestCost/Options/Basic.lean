import TestCost.Decimal.Nearest
import TestCost.Report.Format
import TestCost.Whitelist

/-!
# Options of a run

What a run is told on its command line, before and after it is checked.
Every option takes its value as it was written; values that do not fit
together are found when the settings are made.
-/

namespace TestCost

/-- What a command line asks for. -/
structure Options where
  /-- Starts of the names of classes to analyse; all classes when there are
  none. -/
  entries : List String := []
  /-- Where to look for classes, each a list that colons separate. -/
  classpath : List String := []
  printDepth : Nat := 1
  minCost : Nat := 1
  /-- Starts of the names of classes whose costs do not count. -/
  whitelist : Option String := none
  complexityWeight : Float := 1.0
  globalWeight : Float := 10.0
  maxExcellentCost : Nat := 50
  maxAcceptableCost : Nat := 100
  format : ReportFormat := .text
  /-- Where the report goes; without it, or with `-`, to standard output. -/
  output : Option String := none
  quiet : Bool := false
  verbose : Bool := false
  timing : Bool := false

/-- Options that do not fit together. -/
inductive OptionFault where
  /-- A weight is negative or not finite. -/
  | badWeight (flag : String) (weight : Float)
  /-- A class would be excellent at a cost that is not acceptable. -/
  | costsReversed (excellent acceptable : Nat)

def OptionFault.message : OptionFault → String
  | badWeight flag weight =>
    flag ++ " must be a non-negative number, got "
      ++ (Decimal.ofFloat weight).text Decimal.Scaled.plain
  | costsReversed excellent acceptable =>
    "--max-excellent-cost (" ++ toString excellent ++
      ") must not exceed --max-acceptable-cost ("
      ++ toString acceptable ++ ")"

namespace Options

/-- A weight can scale costs. -/
def isWeight (weight : Float) : Bool := weight.isFinite && !(weight < 0)

/-- The values of the class path; the current directory when none is
given. -/
def searched (o : Options) : List String :=
  if o.classpath.isEmpty then ["."] else o.classpath

/-- Entries as the starts of dotted names; every name starts with the empty
one. -/
def starts (o : Options) : List String :=
  if o.entries.isEmpty then [""] else o.entries.map ClassName.dotted

/-- The settings of a report, if the options fit together. -/
def settings (o : Options) : Except OptionFault ReportSettings :=
  if !isWeight o.complexityWeight then
    .error (.badWeight "--cyclomatic-weight" o.complexityWeight)
  else if !isWeight o.globalWeight then
    .error (.badWeight "--global-weight" o.globalWeight)
  else if o.maxAcceptableCost < o.maxExcellentCost then
    .error (.costsReversed o.maxExcellentCost o.maxAcceptableCost)
  else .ok
    { entries := o.starts
      printDepth := o.printDepth
      minCost := o.minCost
      costModel := { complexityWeight := o.complexityWeight,
                     globalWeight := o.globalWeight }
      maxExcellentCost := o.maxExcellentCost
      maxAcceptableCost := o.maxAcceptableCost }

/-- Classes whose costs do not count. -/
def ignored (o : Options) : Whitelist := Whitelist.ofText o.whitelist

end Options

end TestCost
