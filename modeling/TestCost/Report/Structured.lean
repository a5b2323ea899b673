import TestCost.Report.Document
import TestCost.Report.Settings

/-!
# Structured reports

Two reports for other programs. `costDocument` lists every class with the
costs and the calls of its methods. `findingsDocument` is a SARIF log: one
result for each class that is worth reporting, its level taken from the
grade of the class.
-/

namespace TestCost

namespace Structured

open Document

/-! ## All costs -/

def callDocument (c : ClassCost) (call : Call) : Document :=
  record [("line", number call.line),
    ("method", text (c.graph.node call.callee).fullName)]

def methodDocument (c : ClassCost) (m : MethodCost) : Document :=
  record
    [("signature", text m.signature), ("startingLine", number m.startingLine),
     ("complexityCost", number m.ownComplexity),
       ("globalCost", number m.ownGlobals),
     ("totalComplexityCost", number m.totalComplexity),
     ("totalGlobalCost", number m.totalGlobals),
     ("calls", list (m.calls.map (callDocument c)))]

def missingDocument (m : MissingClass) : Document :=
  record [("className", text m.name), ("reason", text m.reason)]

def classDocument (s : ReportSettings) (c : ClassCost) : Document :=
  record
    [("className", text c.name), ("overallCost", number (s.overall c)),
     ("grade", text (s.grade c).text),
       ("totalComplexityCost", number c.totalComplexity),
     ("totalGlobalCost", number c.totalGlobals),
     ("methods", list (c.methodCosts.map (methodDocument c))),
     ("missingClasses", list (c.missing.map missingDocument))]

/-- The costs of all classes, worth reporting or not. -/
def costDocument (s : ReportSettings) (classes : List ClassCost) : Document :=
  list (classes.map (classDocument s))

/-! ## Findings -/

/-- The command that made a report. -/
structure CommandLine where
  arguments : List String

def ruleName : String := "testability-cost"

def levelOf : Grade → String
  | .excellent => "note"
  | .good => "warning"
  | .needsWork => "error"

def findingMessage (s : ReportSettings) (c : ClassCost) : String :=
  "Testability cost for " ++ c.name ++ " is " ++ toString (s.overall c) ++ " ("
    ++ toString c.totalComplexity ++ " TCC, " ++
      toString c.totalGlobals ++ " TGC)"

/-- The finding about one class. -/
def findingDocument (s : ReportSettings) (c : ClassCost) : Document :=
  record
    [("level", text (levelOf (s.grade c))),
     ("locations", list [record [("logicalLocations",
       list [record [("kind", text "type"), ("name", text c.name)]])]]),
     ("message", record [("text", text (findingMessage s c))]),
     ("properties", record
       [("overallCost", number (s.overall c)),
        ("totalComplexityCost", number c.totalComplexity),
        ("totalGlobalCost", number c.totalGlobals)]),
     ("ruleId", text ruleName)]

/-- The tool that speaks in a log, and the one rule it has. -/
def toolDocument : Document :=
  record [("driver", record
    [("name", text "testability"),
     ("rules", list [record
       [("id", text ruleName), ("name", text "TestabilityCost"),
        ("shortDescription", record [("text", text
          ("Cost of getting a class under test: "
            ++ "unavoidable branching and global state."))])]]),
     ("version", text "0.1.0")])]

/-- A place that was searched for classes. -/
def artifactDocument (uri : String) : Document :=
  record [("location", record [("uri", text uri)])]

/-- How the tool was run; without a command only that it succeeded. -/
def invocationDocument (command : Option CommandLine) : Document :=
  let given := match command with
    | none => []
    | some c =>
      [("arguments", list (c.arguments.map text)),
       ("commandLine", text (String.intercalate " " c.arguments))]
  record (given ++ [("executionSuccessful", boolean true)])

/-- A log of findings. Members are in ascending order of their names. -/
def findingsDocument (s : ReportSettings) (artifacts : List String)
    (command : Option CommandLine) (classes : List ClassCost) : Document :=
  let searched :=
    if artifacts.isEmpty then []
    else [("artifacts", list (artifacts.map artifactDocument))]
  let findings := (classes.filter s.isReported).map (findingDocument s)
  record
    [("$schema", text
      "https://schemastore.azurewebsites.net/schemas/json/sarif-2.1.0.json"),
     ("runs", list [record (searched ++
       [("invocations", list [invocationDocument command]),
         ("results", list findings),
        ("tool", toolDocument)])]),
     ("version", text "2.1.0")]

end Structured

end TestCost
