import StackSurvey.Bytes.Leb128
import StackSurvey.Bytes.Order
import StackSurvey.CallGraph.Basic
import StackSurvey.CallGraph.Compute
import StackSurvey.CallGraph.Dump
import StackSurvey.CallGraph.Merge
import StackSurvey.CallGraph.Search
import StackSurvey.CallGraph.Tree
import StackSurvey.CommandLine.Command
import StackSurvey.CommandLine.Outcome
import StackSurvey.Dwarf.Abbreviation
import StackSurvey.Dwarf.Attribute
import StackSurvey.Dwarf.Attribution
import StackSurvey.Dwarf.DebugInfo
import StackSurvey.Dwarf.DebugSections
import StackSurvey.Dwarf.DebugUnit
import StackSurvey.Dwarf.Decoder
import StackSurvey.Dwarf.Entry
import StackSurvey.Dwarf.Expression
import StackSurvey.Dwarf.Fault
import StackSurvey.Dwarf.Form
import StackSurvey.Dwarf.FormExtent
import StackSurvey.Dwarf.LineInstruction
import StackSurvey.Dwarf.LineTable
import StackSurvey.Dwarf.Operation
import StackSurvey.Dwarf.RangeList
import StackSurvey.Dwarf.Resolution
import StackSurvey.Dwarf.SourceIndex
import StackSurvey.Dwarf.Visit
import StackSurvey.Elf.Header
import StackSurvey.Elf.Image
import StackSurvey.Elf.Symbols
import StackSurvey.Files.StackFiles
import StackSurvey.Files.Tree
import StackSurvey.Listing
import StackSurvey.Main
import StackSurvey.Mangling.Demangle
import StackSurvey.Mangling.Hashed
import StackSurvey.Mangling.Itanium.Encoding
import StackSurvey.Mangling.Itanium.Expression
import StackSurvey.Mangling.Itanium.Grammar
import StackSurvey.Mangling.Itanium.Node
import StackSurvey.Mangling.Itanium.Token
import StackSurvey.Mangling.Itanium.Type
import StackSurvey.Mangling.Itanium.Writer
import StackSurvey.Mangling.Punycode
import StackSurvey.Mangling.Scheme
import StackSurvey.Mangling.V0.Printer
import StackSurvey.Mangling.V0.Reader
import StackSurvey.PartitionPoint
import StackSurvey.Path.Basic
import StackSurvey.Path.Source
import StackSurvey.Proofs.CallGraph.ByteOffsets
import StackSurvey.Proofs.CallGraph.CallTree
import StackSurvey.Proofs.CallGraph.ComputedGraph
import StackSurvey.Proofs.CallGraph.Declaration
import StackSurvey.Proofs.CallGraph.DumpTable
import StackSurvey.Proofs.CallGraph.Exploration
import StackSurvey.Proofs.CallGraph.GrownGraph
import StackSurvey.Proofs.CallGraph.LocalStack
import StackSurvey.Proofs.CallGraph.Merge
import StackSurvey.Proofs.CallGraph.Notes
import StackSurvey.Proofs.CallGraph.Recomputation
import StackSurvey.Proofs.CallGraph.RecursionClass
import StackSurvey.Proofs.CallGraph.RenderedTree
import StackSurvey.Proofs.CallGraph.Resolution
import StackSurvey.Proofs.CallGraph.SimplePath
import StackSurvey.Proofs.CallGraph.WorstChain
import StackSurvey.Proofs.CallGraph.WrittenDump
import StackSurvey.Proofs.Dwarf.AbbreviationBytes
import StackSurvey.Proofs.Dwarf.AbbreviationTable
import StackSurvey.Proofs.Dwarf.AddressFields
import StackSurvey.Proofs.Dwarf.Attribution
import StackSurvey.Proofs.Dwarf.ClosestEntry
import StackSurvey.Proofs.Dwarf.Confinement
import StackSurvey.Proofs.Dwarf.Consumption
import StackSurvey.Proofs.Dwarf.DamagedInfo
import StackSurvey.Proofs.Dwarf.DamagedUnit
import StackSurvey.Proofs.Dwarf.DecodeCount
import StackSurvey.Proofs.Dwarf.DecodeTrace
import StackSurvey.Proofs.Dwarf.DelimitedUnits
import StackSurvey.Proofs.Dwarf.EntryRange
import StackSurvey.Proofs.Dwarf.EntryTree
import StackSurvey.Proofs.Dwarf.Execution
import StackSurvey.Proofs.Dwarf.ExpressionTree
import StackSurvey.Proofs.Dwarf.FileBytes
import StackSurvey.Proofs.Dwarf.FileSpelling
import StackSurvey.Proofs.Dwarf.FormCodes
import StackSurvey.Proofs.Dwarf.GroupBytes
import StackSurvey.Proofs.Dwarf.GroupValue
import StackSurvey.Proofs.Dwarf.LineBytes
import StackSurvey.Proofs.Dwarf.LineMachine
import StackSurvey.Proofs.Dwarf.LineTableBytes
import StackSurvey.Proofs.Dwarf.Locality
import StackSurvey.Proofs.Dwarf.LoneUnit
import StackSurvey.Proofs.Dwarf.Navigation
import StackSurvey.Proofs.Dwarf.NumberBytes
import StackSurvey.Proofs.Dwarf.OperationBytes
import StackSurvey.Proofs.Dwarf.RangeBase
import StackSurvey.Proofs.Dwarf.RangeListBytes
import StackSurvey.Proofs.Dwarf.Reading
import StackSurvey.Proofs.Dwarf.ReadsBelow
import StackSurvey.Proofs.Dwarf.References
import StackSurvey.Proofs.Dwarf.Relocation
import StackSurvey.Proofs.Dwarf.ReservedIndices
import StackSurvey.Proofs.Dwarf.Restating
import StackSurvey.Proofs.Dwarf.Settling
import StackSurvey.Proofs.Dwarf.SiblingLinks
import StackSurvey.Proofs.Dwarf.SourceFiles
import StackSurvey.Proofs.Dwarf.SourceIndex
import StackSurvey.Proofs.Dwarf.SourceRows
import StackSurvey.Proofs.Dwarf.StackDepth
import StackSurvey.Proofs.Dwarf.Traversal
import StackSurvey.Proofs.Dwarf.Truncation
import StackSurvey.Proofs.Dwarf.UnitExtent
import StackSurvey.Proofs.Dwarf.UnitHeaderBytes
import StackSurvey.Proofs.Dwarf.UnitIsolation
import StackSurvey.Proofs.Dwarf.UnitLocality
import StackSurvey.Proofs.Dwarf.UnitOrder
import StackSurvey.Proofs.Dwarf.ValueBytes
import StackSurvey.Proofs.Dwarf.ValueExtent
import StackSurvey.Proofs.Dwarf.VisitOrder
import StackSurvey.Proofs.Dwarf.WordArithmetic
import StackSurvey.Proofs.Dwarf.WrittenEntry
import StackSurvey.Proofs.Dwarf.WrittenLineTable
import StackSurvey.Proofs.Dwarf.WrittenValue
import StackSurvey.Proofs.Elf.EntryOffsets
import StackSurvey.Proofs.Elf.GuardedReading
import StackSurvey.Proofs.Elf.HeaderBytes
import StackSurvey.Proofs.Elf.SectionTable
import StackSurvey.Proofs.Elf.SymbolBytes
import StackSurvey.Proofs.Elf.WrittenImage
import StackSurvey.Proofs.Elf.WrittenSymbols
import StackSurvey.Proofs.Files.FoundFiles
import StackSurvey.Proofs.Files.PairedDumps
import StackSurvey.Proofs.KeyedFold
import StackSurvey.Proofs.Path.Components
import StackSurvey.Proofs.Path.Routes
import StackSurvey.Proofs.Path.SourceNames
import StackSurvey.Proofs.StackReport.AcceptedLines
import StackSurvey.Proofs.StackReport.DuplicateCount
import StackSurvey.Proofs.StackReport.MergedReports
import StackSurvey.Proofs.StackReport.NotingOrder
import StackSurvey.Proofs.StackReport.ReportedFrames
import StackSurvey.Proofs.StackReport.WrittenReport
import StackSurvey.Proofs.SymbolTable.NameIndex
import StackSurvey.Proofs.SymbolTable.Passes
import StackSurvey.Proofs.Text.Lines
import StackSurvey.Proofs.Text.Utf8
import StackSurvey.StackReport
import StackSurvey.Survey
import StackSurvey.Symbol
import StackSurvey.SymbolTable
import StackSurvey.Text.Number
import StackSurvey.Text.Split
import StackSurvey.Text.Utf8
