import TestCost.Options.Arguments
import TestCost.Run

/-!
# The program

Reads the command line and the files on the class path, runs, shows the log
on standard error and writes the report. Everything that is decided is
decided by `Options.ofArguments` and `run`; this module only fetches and
delivers.

Jars are not unpacked here, so a jar on the class path is told of as a file
that cannot be read.
-/

namespace TestCost

namespace Program

/-- The name that the program goes by. -/
def name : String := "testability"

/-- A place in the file system. -/
def place (path : String) : IO.FS.DirEntry := { root := path, fileName := "" }

/-- Everything at a path, under the parts that stand for it. -/
partial def nodesAt (parts : PathParts) (path : String) :
    IO (List (PathParts × FileNode)) := do
  if ← (place path).root.isDir then
    let entries ← (place path).root.readDir
    let below ← entries.toList.mapM fun entry =>
      nodesAt (parts ++ [entry.fileName]) (path ++ "/" ++ entry.fileName)
    return (parts, .directory) :: below.flatten
  else if ← (place path).root.pathExists then
    return [(parts, .file (← IO.FS.readBinFile path).data)]
  else return []

/-- The directories that a path leads through, and its end if that is one. -/
def directoriesTo (path : String) : IO (List (PathParts × FileNode)) := do
  let parts := path.splitOn "/"
  let starts := (List.range parts.length).map fun n =>
    String.intercalate "/" (parts.take (n + 1))
  let found ← starts.filterM fun start => (place start).root.isDir
  return found.map fun start => (PathParts.ofText start, .directory)

/-- The files that matter to a run. -/
def filesFor (o : Options) : IO FileTree := do
  let entries := Classpath.splitEntries o.searched
  let roots ← entries.mapM fun entry => nodesAt (PathParts.ofText entry) entry
  let ways ← (entries ++ o.outputFile?.toList).mapM directoriesTo
  return { nodes := roots.flatten ++ ways.flatten }

/-- An event is shown unless it matters too little. -/
def shows (o : Options) (event : LogEvent) : Bool :=
  match event.level with
  | .error => true
  | .warn => !o.quiet
  | .info | .debug => o.verbose

/-- What is told about a command line that cannot be followed. -/
def usageText : UsageFault → String
  | .helpAsked =>
    "Usage: " ++ name ++ " [OPTIONS] [ENTRY]...\n\nOptions: "
      ++ "--classpath PATH, --print-depth N, --min-cost N, "
      ++ "--whitelist PREFIXES, --cyclomatic-weight WEIGHT, "
      ++ "--global-weight WEIGHT, "
      ++ "--max-excellent-cost N, --max-acceptable-cost N, "
      ++ "--format text|summary|sarif|json, --output PATH, "
      ++ "--quiet, --verbose, --timing"
  | .versionAsked => name ++ " 0.1.0"
  | .conflict =>
    "error: an option cannot be used multiple times or with another one"
  | .unknownArgument => "error: unexpected argument found"
  | .unexpectedValue => "error: unexpected value for a switch found"
  | .invalidValue =>
    "error: a value is missing or is not one of the possible values"
  | .badNumber => "error: invalid value for a number"

/-- Write the report to where it is to go. -/
def deliver (o : Options) (report : String) : IO Unit :=
  match o.outputFile? with
  | some path => IO.FS.writeFile path report
  | none => IO.print report

/-- Run with options; answers the exit code. -/
def follow (o : Options) (arguments : List String) : IO UInt32 := do
  let started ← IO.monoMsNow
  match run o (← filesFor o) (some { arguments := name :: arguments }) with
  | .error fault =>
    IO.eprintln ("Error: " ++ fault.message)
    return 1
  | .ok outcome =>
    for event in outcome.log do
      if shows o event then IO.eprintln event.text
    deliver o outcome.report
    if o.timing && !o.quiet then
      let elapsed := (← IO.monoMsNow) - started
      IO.eprintln ("timing: total_ms=" ++ toString elapsed ++ " classes="
        ++ toString outcome.analysed ++ " loaded=" ++ toString outcome.loaded)
    return 0

end Program

end TestCost

def main (arguments : List String) : IO UInt32 := do
  match TestCost.Options.ofArguments arguments with
  | .ok options => TestCost.Program.follow options arguments
  | .error fault =>
    let text := TestCost.Program.usageText fault
    if fault = .helpAsked ∨ fault = .versionAsked then
      IO.println text
      return 0
    else
      IO.eprintln text
      return 2
