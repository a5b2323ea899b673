import TestCost.Analysis.Basic
import TestCost.Analysis.Class
import TestCost.Analysis.Visit
import TestCost.Class.Basic
import TestCost.Class.Loading
import TestCost.ClassFile.Attribute
import TestCost.ClassFile.Basic
import TestCost.ClassFile.Fault
import TestCost.ClassFile.Pool
import TestCost.ClassFile.Reader
import TestCost.ClassName
import TestCost.Classpath
import TestCost.Code.Fault
import TestCost.Code.Form
import TestCost.Code.Instruction
import TestCost.Code.Meaning
import TestCost.Code.Reading
import TestCost.Cost.Class
import TestCost.Cost.Graph
import TestCost.Decimal.Binary
import TestCost.Decimal.Fixed
import TestCost.Decimal.Nearest
import TestCost.Decimal.Shortest
import TestCost.Descriptor
import TestCost.Fault
import TestCost.FileTree
import TestCost.Flow.Event
import TestCost.Flow.Execution
import TestCost.Flow.Graph
import TestCost.Flow.Order
import TestCost.Log
import TestCost.Main
import TestCost.Method.Basic
import TestCost.Method.Decoding
import TestCost.Method.Slots
import TestCost.Options.Arguments
import TestCost.Options.Basic
import TestCost.Proofs.Analysis.Ancestry
import TestCost.Proofs.Analysis.Calls
import TestCost.Proofs.Analysis.Chains
import TestCost.Proofs.Analysis.ClassRun
import TestCost.Proofs.Analysis.Constants
import TestCost.Proofs.Analysis.Facts
import TestCost.Proofs.Analysis.FieldChains
import TestCost.Proofs.Analysis.History
import TestCost.Proofs.Analysis.Independence
import TestCost.Proofs.Analysis.Missing
import TestCost.Proofs.Analysis.Once
import TestCost.Proofs.Analysis.Resolution
import TestCost.Proofs.Analysis.StaticWrites
import TestCost.Proofs.Analysis.Step
import TestCost.Proofs.Class
import TestCost.Proofs.Code.Encoding
import TestCost.Proofs.Code.Extent
import TestCost.Proofs.Code.Labels
import TestCost.Proofs.Code.Mapping
import TestCost.Proofs.Code.Reading
import TestCost.Proofs.Code.RoundTrip
import TestCost.Proofs.Code.Truncation
import TestCost.Proofs.Cost.Ranking
import TestCost.Proofs.Cost.Reachability
import TestCost.Proofs.Cost.Records
import TestCost.Proofs.Except
import TestCost.Proofs.Flow.Branching
import TestCost.Proofs.Flow.Builder
import TestCost.Proofs.Flow.Depth
import TestCost.Proofs.Flow.Description
import TestCost.Proofs.Flow.Growth
import TestCost.Proofs.Flow.Invariant
import TestCost.Proofs.Flow.Linear
import TestCost.Proofs.Flow.Operands
import TestCost.Proofs.Flow.Order
import TestCost.Proofs.Flow.Paths
import TestCost.Proofs.Flow.Readings
import TestCost.Proofs.Flow.Run
import TestCost.Proofs.Flow.Statements
import TestCost.Proofs.Flow.Success
import TestCost.Proofs.Flow.Transfer
import TestCost.Proofs.Method
import TestCost.Proofs.Method.Additions
import TestCost.Proofs.Method.Complexity
import TestCost.Proofs.Method.Faults
import TestCost.Proofs.Method.Fields
import TestCost.Proofs.Method.Operands
import TestCost.Proofs.Repository
import TestCost.Proofs.Splitting.Builder
import TestCost.Proofs.Splitting.Method
import TestCost.Proofs.Splitting.Order
import TestCost.Proofs.Splitting.Stacks
import TestCost.Proofs.StackEffect
import TestCost.Proofs.StackEffect.Invocation
import TestCost.Proofs.StackFamily.Operations
import TestCost.Proofs.StackFamily.Refinement
import TestCost.Proofs.StackFamily.Replacement
import TestCost.Proofs.StackFamily.Routes
import TestCost.Proofs.StackFamily.View
import TestCost.Proofs.StackFamily.Ways
import TestCost.Report.CallTree
import TestCost.Report.Chart
import TestCost.Report.Document
import TestCost.Report.Format
import TestCost.Report.Overview
import TestCost.Report.Settings
import TestCost.Report.Structured
import TestCost.Repository
import TestCost.Run
import TestCost.StackEffect
import TestCost.StackFamily
import TestCost.Statement
import TestCost.Text.Blank
import TestCost.Text.Combining
import TestCost.Text.ModifiedUtf8
import TestCost.Text.Parts
import TestCost.Text.Quoted
import TestCost.Text.Unprintable
import TestCost.Total
import TestCost.ValueType
import TestCost.Variable
import TestCost.Whitelist
import TestCost.Proofs.Cost.Extraction
import TestCost.Proofs.Flow.Discipline
import TestCost.Proofs.Method.Scoping
import TestCost.Proofs.Class.Names
import TestCost.Proofs.Analysis.Whitelisting
import TestCost.Proofs.Flow.BackEdges
import TestCost.Proofs.Report.Pruning
import TestCost.Proofs.Classpath.Discovery
import TestCost.Proofs.Method.SlotIdentity
import TestCost.Proofs.Analysis.Construction
import TestCost.Proofs.Method.DebugNames
import TestCost.Proofs.StackFamily.Restoring
import TestCost.Proofs.Method.Lines
