import TestCost.Report.CallTree
import TestCost.Report.Overview
import TestCost.Report.Structured

/-!
# Formats of reports

The four reports that a run can make of the same costs.
-/

namespace TestCost

/-- The kind of report. -/
inductive ReportFormat where
  /-- Call trees under every class. -/
  | text
  /-- Counts, distributions and the most expensive classes. -/
  | summary
  /-- A log of findings for other programs. -/
  | sarif
  /-- All costs for other programs. -/
  | json
  deriving DecidableEq, Inhabited

namespace ReportFormat

/-- The name by which a format is asked for. -/
def name : ReportFormat → String
  | text => "text"
  | summary => "summary"
  | sarif => "sarif"
  | json => "json"

def all : List ReportFormat := [text, summary, sarif, json]

/-- The format of a name. -/
def ofName? (name : String) : Option ReportFormat :=
  all.find? fun f => f.name == name

/-- The report on classes. Artifacts and the command are told only by a log
of findings. -/
def render (format : ReportFormat) (s : ReportSettings)
    (artifacts : List String) (command : Option Structured.CommandLine)
    (classes : List ClassCost) : String :=
  match format with
  | text => CallTree.report s classes
  | summary => Overview.report s classes
  | sarif => (Structured.findingsDocument s artifacts command classes).toText
  | json => (Structured.costDocument s classes).toText ++ "\n"

/-- The report as a file, which ends with a line break. -/
def renderFile (format : ReportFormat) (s : ReportSettings)
    (artifacts : List String) (command : Option Structured.CommandLine)
    (classes : List ClassCost) : String :=
  let report := format.render s artifacts command classes
  match format with
  | sarif => report ++ "\n"
  | _ => report

end ReportFormat

end TestCost
