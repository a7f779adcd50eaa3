import CilAudit.Binary
import CilAudit.Binary.Arithmetic
import CilAudit.Binary.Logarithm
import CilAudit.Binary.Notation
import CilAudit.Binary.Shortest
import CilAudit.BlockGraph
import CilAudit.Calendar
import CilAudit.CallGraph
import CilAudit.Cbor
import CilAudit.Command
import CilAudit.Command.Arguments
import CilAudit.Command.Check
import CilAudit.Command.Flag
import CilAudit.Command.Graphs
import CilAudit.Command.Line
import CilAudit.Command.Task
import CilAudit.Datum
import CilAudit.Datum.Json
import CilAudit.Datum.Record
import CilAudit.Datum.Tag
import CilAudit.Diagram
import CilAudit.Diagram.Calls
import CilAudit.Diagram.Flow
import CilAudit.Diagram.SignalPaths
import CilAudit.Dispatcher
import CilAudit.Dump
import CilAudit.Dump.Body
import CilAudit.Dump.Build
import CilAudit.Dump.Document
import CilAudit.Duration
import CilAudit.Event
import CilAudit.File
import CilAudit.Instant
import CilAudit.Instruction
import CilAudit.Instruction.Decode
import CilAudit.Instruction.Effect
import CilAudit.Instruction.Encoding
import CilAudit.Instruction.Listing
import CilAudit.Json
import CilAudit.Json.Reader
import CilAudit.Log
import CilAudit.Main
import CilAudit.Module
import CilAudit.Module.Decoded
import CilAudit.Module.Listing
import CilAudit.Module.Outline
import CilAudit.Opcode
import CilAudit.Opcode.Table
import CilAudit.Operand
import CilAudit.Path
import CilAudit.Provenance
import CilAudit.Reference
import CilAudit.Report
import CilAudit.Report.Store
import CilAudit.Report.StorePlace
import CilAudit.Rule
import CilAudit.Rule.All
import CilAudit.Rule.Catalogue
import CilAudit.Rule.Correctness
import CilAudit.Rule.Design
import CilAudit.Rule.Portability
import CilAudit.Rule.Reliability
import CilAudit.Rule.Security
import CilAudit.Search
import CilAudit.Settings
import CilAudit.Signal.Category
import CilAudit.Signal.Entropy
import CilAudit.Signal.Graph
import CilAudit.Signal.Pattern
import CilAudit.Signal.View
import CilAudit.Text
import CilAudit.Text.Base64
import CilAudit.Text.Fields
import CilAudit.Text.Hex
import CilAudit.Text.Letter
import CilAudit.Text.Literal
import CilAudit.Text.Numeral
import CilAudit.Text.Printable
import CilAudit.Text.Quoted
import CilAudit.Text.Utf8
import CilAudit.Toml
import CilAudit.Toml.Document
import CilAudit.Toml.Reader
import CilAudit.Toml.Scalar
import CilAudit.Tree
import CilAudit.Violation
import CilAudit.Watchdog
import CilAudit.Proofs.InstructionSet
import CilAudit.Proofs.Halving
import CilAudit.Proofs.OffsetLookup
import CilAudit.Proofs.BlockPartition
import CilAudit.Proofs.BlockEdges
import CilAudit.Proofs.BlockPaths
import CilAudit.Proofs.StraightLine
import CilAudit.Proofs.CoarsestBlocks
import CilAudit.Proofs.Machine
import CilAudit.Proofs.Producer
import CilAudit.Proofs.ForwardRun
import CilAudit.Proofs.Origin
import CilAudit.Proofs.WordAnswers
import CilAudit.Proofs.LittleEndian
import CilAudit.Proofs.Encoding
import CilAudit.Proofs.Registration
import CilAudit.Proofs.Deliveries
import CilAudit.Proofs.EventOrder
import CilAudit.Proofs.Isolation
import CilAudit.Proofs.Reencoding
import CilAudit.Proofs.MethodRules
import CilAudit.Proofs.ExactValues
import CilAudit.Proofs.BodyForms
import CilAudit.Proofs.Vigilance
import CilAudit.Proofs.SignalRoles
import CilAudit.Proofs.ViewFolding
import CilAudit.Proofs.DocumentText
import CilAudit.Proofs.WrittenItems
import CilAudit.Proofs.LoadedData
import CilAudit.Proofs.WrittenRecords
import CilAudit.Proofs.DumpRecords
import CilAudit.Proofs.DumpConversion
import CilAudit.Proofs.AnalysedBodies
import CilAudit.Proofs.SuccessivePasses
import CilAudit.Proofs.MethodFindings
import CilAudit.Proofs.LoadedBodies
import CilAudit.Proofs.IntegerOperands
import CilAudit.Proofs.PassedArguments
import CilAudit.Proofs.StoredFindings
import CilAudit.Proofs.TypeGraph
import CilAudit.Proofs.LocalFindings
import CilAudit.Proofs.ShortestTrails
import CilAudit.Proofs.SplitBodies
import CilAudit.Proofs.ReadErrors
import CilAudit.Proofs.RefusedOperands
import CilAudit.Proofs.WithdrawnAnswers
import CilAudit.Proofs.GraphOrder
import CilAudit.Proofs.MergePoints
import CilAudit.Proofs.ExposedLocals
import CilAudit.Proofs.TokenOrder
import CilAudit.Proofs.ShortestDecimals
import CilAudit.Proofs.WrittenNumbers
import CilAudit.Proofs.WrittenDocuments
import CilAudit.Proofs.CarriedData
import CilAudit.Proofs.ConvertedBodies
import CilAudit.Proofs.SignalCounts
import CilAudit.Proofs.UnreachedTargets
import CilAudit.Proofs.LosslessLabels
import CilAudit.Proofs.NodeNames
import CilAudit.Proofs.CallSites
import CilAudit.Proofs.LetterCase
import CilAudit.Proofs.RuleTable
import CilAudit.Proofs.UnguardedAccess
import CilAudit.Proofs.UnguardedBlocks
import CilAudit.Proofs.FaultlessRules
import CilAudit.Proofs.ExactLookup
import CilAudit.Proofs.CategorySets
