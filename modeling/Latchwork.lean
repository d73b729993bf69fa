import Latchwork.Archive
import Latchwork.Binary64
import Latchwork.Bits
import Latchwork.Bytes
import Latchwork.Capacity
import Latchwork.Cell
import Latchwork.CommandLine.Grammar
import Latchwork.CommandLine.Run
import Latchwork.CommandLine.Setup
import Latchwork.Component
import Latchwork.Dialect.Basic
import Latchwork.Dialect.C
import Latchwork.Dialect.Python
import Latchwork.Environment
import Latchwork.Error
import Latchwork.FileTree
import Latchwork.Hash.Blake2b
import Latchwork.Hash.Crc32
import Latchwork.Index
import Latchwork.Instance
import Latchwork.Interface
import Latchwork.Json.Printer
import Latchwork.Json.Reader
import Latchwork.Json.Schema
import Latchwork.Json.Token
import Latchwork.Json.Value
import Latchwork.Log
import Latchwork.Main
import Latchwork.Memory.Altsyncram
import Latchwork.Memory.InitFile
import Latchwork.Memory.Shape
import Latchwork.Netlist.Basic
import Latchwork.Netlist.Builder
import Latchwork.Netlist.Form
import Latchwork.Plan.Basic
import Latchwork.Plan.Prepare
import Latchwork.Primitive
import Latchwork.Procedure.Basic
import Latchwork.Procedure.Compile
import Latchwork.Procedure.Expr
import Latchwork.Procedure.Name
import Latchwork.Procedure.Run
import Latchwork.Procedure.Source
import Latchwork.Proofs.Component
import Latchwork.Proofs.Outcome
import Latchwork.Proofs.Traversal
import Latchwork.Schedule
import Latchwork.Stack
import Latchwork.Text.Basic
import Latchwork.Text.Blank
import Latchwork.Text.CaseContext
import Latchwork.Text.CodeRanges
import Latchwork.Text.Digit
import Latchwork.Text.Encoding
import Latchwork.Text.Identifier
import Latchwork.Text.Layout
import Latchwork.Text.Lowercase
import Latchwork.Text.Numeral
import Latchwork.Text.Printable
import Latchwork.Text.Quoted
import Latchwork.Traversal
import Latchwork.Trie
import Latchwork.Wire
import Latchwork.Proofs.Schedule
import Latchwork.Proofs.Loading
import Latchwork.Proofs.Engine
import Latchwork.Proofs.Blocks
import Latchwork.Proofs.Simulation
import Latchwork.Proofs.Unbounded
import Latchwork.Proofs.FixedWidth
import Latchwork.Proofs.Width
import Latchwork.Proofs.Reading
import Latchwork.Proofs.RoundTrip
import Latchwork.Proofs.Scope
import Latchwork.Proofs.Safety
import Latchwork.Proofs.Building
import Latchwork.Proofs.Assembly
import Latchwork.Proofs.Acceptance
import Latchwork.Proofs.Canonical
import Latchwork.Proofs.ReadOutcome
import Latchwork.Proofs.InsertionOrder
import Latchwork.Proofs.Refusal
import Latchwork.Proofs.Diagnosis
import Latchwork.Proofs.Places
import Latchwork.Proofs.Extraction
import Latchwork.Proofs.Confinement
import Latchwork.Proofs.AllOrNothing
import Latchwork.Proofs.FailedGeneration
import Latchwork.Proofs.Allocation
import Latchwork.Proofs.ForwardBuilding
import Latchwork.Proofs.ReadBack
import Latchwork.Proofs.InitialContents
import Latchwork.Proofs.BusOrder
import Latchwork.Proofs.ReportedCycle
import Latchwork.Proofs.DigestInput
import Latchwork.Proofs.Artifacts
import Latchwork.Proofs.Encodable
import Latchwork.Proofs.FlatPlan
import Latchwork.Proofs.PreparedPlan
import Latchwork.Proofs.PostOrder
import Latchwork.Proofs.Running
import Latchwork.Proofs.Parameters
import Latchwork.Proofs.Formula
import Latchwork.Proofs.PackedArithmetic
import Latchwork.Proofs.OutputCoding
import Latchwork.Proofs.StatementText
import Latchwork.Proofs.ProgramText
import Latchwork.Proofs.PortTiling
import Latchwork.Proofs.AdditionOrder
import Latchwork.Proofs.IntegerList
import Latchwork.Proofs.WireNames
import Latchwork.Proofs.DependencyOrder
import Latchwork.Proofs.ClockInputs
