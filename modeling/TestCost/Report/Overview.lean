import TestCost.Decimal.Fixed
import TestCost.Report.Chart

/-!
# The overview

The summary of a run: how many classes have each grade, how their costs
are distributed, and which classes cost most.
-/

namespace TestCost

namespace Overview

/-- Columns of bars and histograms. -/
def chartWidth : Nat := 50

/-- Buckets of a histogram. -/
def chartRows : Nat := 10

/-- Number of the most expensive classes that are shown. -/
def worstLimit : Nat := 20

/-- Per cent of a total, with one place; nothing of none. -/
def percent (count total : Nat) : String :=
  Decimal.fixed 1 (if total = 0 then 0
    else 100.0 * floatOfCount count / floatOfCount total)

/-- The costs of the classes of a grade. -/
def costsOf (s : ReportSettings) (classes : List ClassCost) (grade : Grade) :
    List Nat :=
  (classes.filter fun c => s.grade c == grade).map s.overall

/-- The line of a grade. -/
def gradeLine (label : String) (count total : Nat) : String :=
  label ++ ": " ++ Text.rightAligned 5 (toString count) ++ " "
    ++ Text.rightAligned 5 (percent count total) ++ "%"

/-- A titled histogram of costs. -/
def distribution (title : String) (costs : List Nat) (marker : Char)
    (min : Float) (max : Option Float) : List String :=
  let h : Chart.Histogram :=
    { width := chartWidth, height := chartRows, marker, min, max }
  ["", title, String.ofList (List.replicate title.length '=')]
    ++ h.rows (costs.map floatOfCount)

/-- The most expensive classes; of equal ones, by name. -/
def worst (s : ReportSettings) (classes : List ClassCost) : List String :=
  let ranked :=
    (classes.map fun c => (s.overall c, c.name)).mergeSort fun a b =>
    if a.1 ≠ b.1 then b.1 < a.1 else !decide (b.2 < a.2)
  (ranked.take worstLimit).map fun (cost, name) =>
    Text.rightAligned 8 (toString cost) ++ " " ++ name

/-- The summary report. -/
def report (s : ReportSettings) (classes : List ClassCost) : String :=
  let excellent := costsOf s classes .excellent
  let good := costsOf s classes .good
  let needsWork := costsOf s classes .needsWork
  let total := classes.length
  let breakdown := Chart.bar chartWidth
    [('.', excellent.length), ('=', good.length), ('@', needsWork.length)]
  let excellentMax := floatOfCount s.maxExcellentCost
  let acceptableMax := floatOfCount s.maxAcceptableCost
  Text.ofLines <|
    ["      Analyzed classes: " ++ Text.rightAligned 5 (toString total),
     gradeLine " Excellent classes (.)" excellent.length total,
     gradeLine "      Good classes (=)" good.length total,
     gradeLine "Needs work classes (@)" needsWork.length total,
     "             Breakdown: [" ++ breakdown ++ "]"]
      ++ distribution "Excellent Cost Distribution" excellent '.' 0
        (some excellentMax)
      ++ distribution "Good Cost Distribution" good '=' excellentMax
        (some acceptableMax)
      ++ distribution "Needs Work Cost Distribution" needsWork '#'
        acceptableMax none
      ++ ["", "Highest Cost", "============"] ++ worst s classes

end Overview

end TestCost
