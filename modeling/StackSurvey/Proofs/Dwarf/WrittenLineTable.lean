import StackSurvey.Proofs.Dwarf.LineMachine
import StackSurvey.Proofs.Dwarf.LineTableBytes

namespace StackSurvey.Dwarf

open Decoder

/-- The part of a header that describes the instructions, as it is written. -/
structure WrittenLineHeader where
  minInstructionLength : UInt8
  /-- From version 4 on. -/
  maxOperations : UInt8
  defaultIsStatement : UInt8
  lineBase : Int8
  lineRange : UInt8
  opcodeBase : UInt8
  operandCounts : List UInt8
  lineRange_ne_zero : lineRange ≠ 0
  opcodeBase_eq : opcodeBase.toNat = operandCounts.length + 1

namespace WrittenLineHeader

variable (x : WrittenLineHeader)

def toHeader : LineHeader where
  minInstructionLength := x.minInstructionLength.toNat
  lineBase := x.lineBase.toInt
  lineRange := x.lineRange.toNat
  opcodeBase := x.opcodeBase.toNat
  operandCounts := x.operandCounts

def bytes (version : Nat) : List UInt8 :=
  x.minInstructionLength :: ((if 4 ≤ version then [x.maxOperations] else []) ++
    x.defaultIsStatement :: x.lineBase.toUInt8 :: x.lineRange :: x.opcodeBase :: x.operandCounts)

/-- The bytes of the header, whatever they say. -/
def toEncoded : EncodedLineHeader where
  minInstructionLength := x.minInstructionLength
  maxOperations := x.maxOperations
  defaultIsStatement := x.defaultIsStatement
  lineBase := x.lineBase
  lineRange := x.lineRange
  opcodeBase := x.opcodeBase
  operandCounts := x.operandCounts
  length_operandCounts := by rw [x.opcodeBase_eq, Nat.add_sub_cancel]

theorem opcodeBase_pos : 0 < x.toHeader.opcodeBase := by
  rw [toHeader, x.opcodeBase_eq]
  exact Nat.succ_pos _

end WrittenLineHeader

structure WrittenInstruction (header : LineHeader) (order : ByteOrder) where
  instruction : LineInstruction
  bytes : List UInt8
  encodes : instruction.Encodes header order bytes

theorem LineState.runProgram_of_endsWith {w : Window} {pos : Nat} {header : LineHeader}
    {order : ByteOrder} {program : List (WrittenInstruction header order)}
    (hbase : 0 < header.opcodeBase) (horder : w.region.order = order)
    (h : w.EndsWith pos (program.flatMap (·.bytes))) (path : FileRecord → String)
    (s : LineState) :
    runProgram header path s w pos =
      .ok ((program.map (·.instruction)).foldl (step header path) s) w.limit := by
  subst horder
  rw [List.foldl_map]
  exact drain_of_reads _ (fun x _ s => (x.encodes.reads_decode hbase).map) rfl h s

/-- A line table as it is written. -/
structure WrittenLineTable where
  format : Format
  order : ByteOrder
  version : Nat
  /-- From version 5 on, as is the size of selectors. -/
  addressSize : UInt8
  selectorSize : UInt8
  header : WrittenLineHeader
  directories : Array String
  fileNames : Array String
  /-- What the header writes of directories and files. -/
  files : List UInt8
  /-- What lies between the files and the program. -/
  padding : List UInt8
  program : List (WrittenInstruction header.toHeader order)
  version_bounds : 2 ≤ version ∧ version ≤ 5

namespace WrittenLineTable

variable (x : WrittenLineTable)

def instructions : List LineInstruction := x.program.map (·.instruction)

/-- The bytes of the header behind its length. -/
def headerBytes : List UInt8 := x.header.bytes x.version ++ (x.files ++ x.padding)

/-- The bytes from the length of the header on. -/
def body : List UInt8 :=
  x.order.encode x.format.offsetSize x.headerBytes.length ++
    (x.headerBytes ++ x.program.flatMap (·.bytes))

def sizedBody : List UInt8 :=
  if 5 ≤ x.version then x.addressSize :: x.selectorSize :: x.body else x.body

def content : List UInt8 := x.order.encode 2 x.version ++ x.sizedBody

def bytes : List UInt8 := x.format.encodeLength x.order x.content.length ++ x.content

/-- The region of the table when it begins at `start`. -/
def region (start addressSize : Nat) : Region where
  start := start
  stop := start + x.bytes.length
  format := x.format
  order := x.order
  addressSize := addressSize

/-- The size of addresses in the header, which version 5 states itself. -/
def addressSizeIn (source : LineSource) : Nat :=
  if 5 ≤ x.version then x.addressSize.toNat else source.addressSize

/-- The table that is loaded. -/
def table (source : LineSource) : LineTable :=
  let path := LineTable.legacyPath (source.compDir.getD "") x.directories
  let final := x.instructions.foldl (LineState.step x.header.toHeader path)
    { fileNames := x.fileNames }
  { version := x.version, includeDirectories := x.directories, fileNames := final.fileNames,
    rows := final.rows }

/-- The bytes of the table, whatever they say. -/
def toEncoded : EncodedLineTable where
  format := x.format
  order := x.order
  version := x.version
  addressSize := x.addressSize
  selectorSize := x.selectorSize
  header := x.header.toEncoded
  files := x.files
  padding := x.padding
  program := x.program.flatMap (·.bytes)
  version_bounds := x.version_bounds

variable {x} {sections : DebugSections} {source : LineSource}

/-- A unit names a table that lies in the section. -/
structure LiesIn (x : WrittenLineTable) (sections : DebugSections) (source : LineSource) :
    Prop where
  order_eq : source.order = x.order
  fits : x.format.Fits x.content.length
  writes_files : LineTable.WritesFiles sections source
    (x.region source.offset.toNat (x.addressSizeIn source)) x.version x.directories x.fileNames
    x.files
  holds : ∃ data, sections.line = some data ∧
    (Window.mk data (.whole data x.order)).Holds source.offset.toNat x.bytes

theorem runs_of_writesFiles
    (h : LineTable.WritesFiles sections source (x.toEncoded.headerRegion source) x.version
      x.directories x.fileNames x.files) :
    x.toEncoded.Runs sections source x.directories x.fileNames
      (x.instructions.foldl
        (LineState.step x.header.toHeader
          (LineTable.legacyPath (source.compDir.getD "") x.directories))
        { fileNames := x.fileNames }) where
  lineRange_ne_zero := x.header.lineRange_ne_zero
  reads_fileDecoder := h.reads_fileDecoder
  runProgram_eq _ _ horder hends :=
    LineState.runProgram_of_endsWith x.header.opcodeBase_pos horder hends _ _

theorem load_of_liesIn (h : x.LiesIn sections source) :
    LineTable.load sections source = .ok (x.table source) := by
  have hlies : x.toEncoded.LiesIn sections source := ⟨h.order_eq, h.fits, h.holds⟩
  exact hlies.load_of_runs (runs_of_writesFiles h.writes_files)

/-- Loading a table that lies where a unit says succeeds. Its row at an address is the last one that
the program, run by the machine over the integers, adds at that address modulo 2^64. -/
theorem rows_load (h : x.LiesIn sections source) :
    ∃ table, LineTable.load sections source = .ok table ∧
      ∀ address, table.rows[address]? =
        lastRow? (LineMachine.rows x.header.toHeader {} x.instructions) address := by
  refine ⟨x.table source, load_of_liesIn h, fun address => ?_⟩
  rw [table]
  dsimp only
  rw [LineState.rows_foldl_step _ _ .initial, getElem?_foldl_insert, Std.TreeMap.getElem?_emptyc,
    Option.or_none]

end WrittenLineTable

def sampleHeader : WrittenLineHeader where
  minInstructionLength := 1
  maxOperations := 1
  defaultIsStatement := 1
  lineBase := -5
  lineRange := 14
  opcodeBase := 13
  operandCounts := [0, 1, 1, 1, 1, 0, 0, 0, 1, 0, 0, 1]
  lineRange_ne_zero := by decide
  opcodeBase_eq := rfl

/-- Two rows at one address, and a row at 0 once the registers are reset. -/
def sampleProgram : List (WrittenInstruction sampleHeader.toHeader .little) :=
  have haddress : LineInstruction.Payload .little (.setAddress 16) [2, 16, 0] :=
    .setAddress (show 0 < 2 by decide) (by decide) (by decide)
  have hline : LineInstruction.Operands sampleHeader.toHeader .little 3
      (.advanceLine (Leb128.signed [0x7f])) [0x7f] := .advanceLine (.last rfl)
  [⟨.setAddress 16, [0, 3, 2, 16, 0], .extended (.last (b := 3) rfl) rfl haddress⟩,
    ⟨.special 7, [20], .special rfl⟩,
    ⟨.advanceLine (Leb128.signed [0x7f]), [3, 0x7f], .standard (by decide) hline⟩,
    ⟨.copy, [1], .standard (by decide) .copy⟩,
    ⟨.endSequence, [0, 1, 1], .extended (.last (b := 1) rfl) rfl (.endSequence [])⟩,
    ⟨.copy, [1], .standard (by decide) .copy⟩]

def sampleTable : WrittenLineTable where
  format := .bits32
  order := .little
  version := 4
  addressSize := 0
  selectorSize := 0
  header := sampleHeader
  directories := #[]
  fileNames := #["a.c"]
  files := [0, 0]
  padding := []
  program := sampleProgram
  version_bounds := by decide

def sampleSections : DebugSections where
  line := some ⟨#[39, 0, 0, 0, 4, 0, 20, 0, 0, 0, 1, 1, 1, 251, 14, 13, 0, 1, 1, 1, 1, 0, 0, 0, 1,
    0, 0, 1, 0, 0, 0, 3, 2, 16, 0, 20, 3, 0x7f, 1, 0, 1, 1, 1]⟩

def sampleSource : LineSource := { offset := 0, order := .little, compName := some "a.c" }

theorem liesIn_sampleTable : sampleTable.LiesIn sampleSections sampleSource where
  order_eq := rfl
  fits := show sampleTable.content.length < 0xfffffff0 by decide
  writes_files := .lists (show ¬ 5 ≤ sampleTable.version by decide) ⟨[], []⟩
  holds := ⟨_, rfl, by decide, rfl⟩

theorem rows_load_sampleTable :
    ∃ table, LineTable.load sampleSections sampleSource = .ok table ∧
      table.rows[(16 : UInt64)]? = some ⟨1, 2, 0⟩ ∧ table.rows[(0 : UInt64)]? = some ⟨1, 1, 0⟩ ∧
      table.rows[(17 : UInt64)]? = none := by
  obtain ⟨table, hload, hrows⟩ := WrittenLineTable.rows_load liesIn_sampleTable
  exact ⟨table, hload, hrows 16, hrows 0, hrows 17⟩

end StackSurvey.Dwarf
