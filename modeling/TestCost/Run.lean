import TestCost.Analysis.Class
import TestCost.Options.Basic

/-!
# Runs

A run finds the classes that it is asked for, computes their costs and
makes a report of them. It is a function of its options and of the files
that it can see.
-/

namespace TestCost

/-- Why a run has no report. -/
inductive RunFault where
  | options (fault : OptionFault)
  | root (fault : RootFault)
  /-- The file for the report cannot be made. -/
  | unwritable (path : String)

def RunFault.message : RunFault → String
  | options fault => fault.message
  | root fault => fault.message
  | unwritable path => "failed to open " ++ path

/-- What a run has to show. -/
structure Outcome where
  report : String
  log : List LogEvent
  /-- Number of classes in the report. -/
  analysed : Nat
  /-- Number of classes that were loaded. -/
  loaded : Nat

/-- The file that the report goes to; `none` for standard output. -/
def Options.outputFile? (o : Options) : Option String :=
  o.output.filter fun path => path ≠ "-"

/-- Run with options on files. The command that made the run is told only
in a log of findings. -/
def run (o : Options) (files : FileTree)
    (command : Option Structured.CommandLine) :
    Except RunFault Outcome := do
  let settings ← o.settings.mapError .options
  let (classpath, openingLog) ←
    (Classpath.openAll files (Classpath.splitEntries o.searched)).mapError .root
  let names := classpath.classNames settings.entries
  let log := openingLog ++ [.analysingClasses names.length]
  let start : Repository :=
    { source := .classpath classpath, log := log.toArray }
  let (repository, costs) := start.analyse o.ignored names
  if let some path := o.outputFile? then
    unless files.canCreate path do throw (.unwritable path)
  return {
    report :=
      o.format.renderFile settings (classpath.roots.map Root.path) command costs
    log := repository.log.toList
    analysed := costs.length
    loaded := repository.size }

end TestCost
