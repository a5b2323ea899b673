import TestCost.Decimal.Fixed
import TestCost.Report.Settings

/-!
# Call trees

The text report shows every method of a class with the methods it calls
below it, indented by the number of calls. In one tree a method has one
line, where it is met first. A method whose totals are all too small is
left out with everything below it, and so is everything deeper than the
report is told to go.
-/

namespace TestCost

namespace CallTree

/-- One more level. -/
def step : String := "  "

/-- The line of a method; `line` is where it is called. -/
def lineOf (indent : String) (line : Option Nat) (m : MethodCost) : String :=
  match line with
  | some line => indent ++ "line " ++ toString line ++ ": " ++ m.text
  | none => indent ++ m.text

/-- The lines of a method and of what it calls, and the methods met after
them; `seen` are those met before. -/
def lines (g : CostGraph) (minCost : Nat) :
    (depth : Nat) → (indent : String) → (line : Option Nat) → NodeId →
      (seen : List NodeId) →
      List String × List NodeId
  | 0, _, _, _, seen => ([], seen)
  | depth + 1, indent, line, id, seen =>
    if seen.contains id then ([], seen)
    else if !(g.node id).reaches minCost then ([], id :: seen)
    else
      let below := (g.node id).calls.foldl (fun (shown, seen) call =>
        let (more, seen) := lines g minCost depth (indent ++ step)
          (some call.line) call.callee seen
        (shown ++ more, seen)) ([], id :: seen)
      (lineOf indent line (g.node id) :: below.1, below.2)

/-- The call tree of a method of a class. -/
def ofMethod (s : ReportSettings) (c : ClassCost) (id : NodeId) : List String :=
  (lines c.graph s.minCost s.printDepth step none id []).1

/-- The call trees of a class under its name. -/
def ofClass (s : ReportSettings) (c : ClassCost) : List String :=
  "" :: ("Testability cost for " ++ c.name ++ " [ " ++
    toString c.totalComplexity ++ " TCC, "
      ++ toString c.totalGlobals ++ " TGC ]")
    :: c.methods.flatMap (ofMethod s c)

def divider : String := "-----------------------------------------"

/-- A total shared out among classes, with two places; nothing among none. -/
def average (total count : Nat) : String :=
  Decimal.fixed 2 (if count = 0 then 0
    else floatOfCount total / floatOfCount count)

/-- The text report. Totals are those of the classes shown, averages are
shared out among all classes. -/
def report (s : ReportSettings) (classes : List ClassCost) : String :=
  let shown := classes.filter s.isReported
  let complexity := total (shown.map ClassCost.totalComplexity)
  let globals := total (shown.map ClassCost.totalGlobals)
  let count := classes.length
  Text.ofLines <|
    [divider, "Packages/Classes To Enter: "]
      ++ s.entries.map (fun entry => "  " ++ entry ++ "*")
      ++ ["Max Method Print Depth: " ++ toString s.printDepth,
          "Min Class Cost: " ++ toString s.minCost, divider]
      ++ shown.flatMap (ofClass s)
      ++ ["", divider, "Summary Statistics:",
          " TCC for all classes entered: " ++ toString complexity,
          " TGC for all classes entered: " ++ toString globals,
          " Average TCC for all classes entered: " ++ average complexity count,
          " Average TGC for all classes entered: " ++ average globals count,
          "", "Key:", " TCC: Total Complexity Cost",
            " TGC: Total Global Cost", "",
          "Analyzed " ++ toString count
            ++ " classes (plus non-whitelisted external dependencies)"]

end CallTree

end TestCost
