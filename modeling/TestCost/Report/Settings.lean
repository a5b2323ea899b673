import TestCost.Cost.Class

/-!
# Settings of a report

What every report is told: the classes that were asked for, how deep call
trees go, which costs are too small to mention, and how costs are weighted
and graded.
-/

namespace TestCost

/-- What a report is told. -/
structure ReportSettings where
  /-- Starts of the names of classes that a run was asked for. -/
  entries : List String := [""]
  /-- Number of levels of a call tree. -/
  printDepth : Nat := 1
  /-- Costs below this one are not worth reporting. -/
  minCost : Nat := 1
  costModel : CostModel := {}
  /-- The overall cost from which on a class is no longer excellent. -/
  maxExcellentCost : Nat := 50
  /-- The overall cost from which on a class needs work. -/
  maxAcceptableCost : Nat := 100

/-- Judgement of a class by its overall cost. -/
inductive Grade where
  | excellent
  | good
  | needsWork
  deriving DecidableEq, Inhabited

def Grade.text : Grade → String
  | excellent => "excellent"
  | good => "good"
  | needsWork => "needs-work"

namespace ReportSettings

/-- The overall cost of a class. -/
def overall (s : ReportSettings) (c : ClassCost) : Nat := s.costModel.overall c

def grade (s : ReportSettings) (c : ClassCost) : Grade :=
  if s.overall c < s.maxExcellentCost then .excellent
  else if s.overall c < s.maxAcceptableCost then .good
  else .needsWork

/-- A class is worth reporting when a cost of one of its methods is. -/
def isReported (s : ReportSettings) (c : ClassCost) : Bool :=
  s.minCost ≤ c.highestComplexity || s.minCost ≤ c.highestGlobals

end ReportSettings

namespace Text

/-- The text at the right end of `width` columns. -/
def rightAligned (width : Nat) (text : String) : String :=
  String.ofList (List.replicate (width - text.length) ' ') ++ text

/-- Lines, each ended. -/
def ofLines (lines : List String) : String :=
  String.join (lines.map (· ++ "\n"))

end Text

end TestCost
