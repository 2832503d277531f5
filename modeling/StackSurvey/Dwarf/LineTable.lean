import StackSurvey.Dwarf.DebugSections
import StackSurvey.Dwarf.FormExtent
import StackSurvey.Dwarf.LineInstruction
import StackSurvey.Path.Source
import Std.Data.TreeMap

namespace StackSurvey.Dwarf

open Decoder StackSurvey.Path

/-- The place that an address comes from. -/
structure LineRow where
  file : UInt64
  line : UInt64
  column : UInt64
deriving DecidableEq, Inhabited

abbrev LineRows : Type := Std.TreeMap UInt64 LineRow

/-- Where the line table of a unit is, and what the unit says of its primary file. -/
structure LineSource where
  offset : UInt64
  addressSize : Nat := 8
  order : ByteOrder
  compDir : Option String := none
  compName : Option String := none

/-- The files and rows of a unit. -/
structure LineTable where
  version : Nat
  includeDirectories : Array String
  /-- File 0 is the primary file of the unit. -/
  fileNames : Array String
  rows : LineRows

namespace LineTable

def fileName? (table : LineTable) (index : UInt64) : Option String :=
  table.fileNames[index.toNat]?

/-- The rows from `low` on, below `high`. -/
def rowsIn (table : LineTable) (low high : UInt64) : List (UInt64 × LineRow) :=
  table.rows.toList.filter fun (address, _) => low ≤ address && address < high

end LineTable

/-- The state of the line machine. -/
structure LineState where
  registers : LineRegisters := {}
  rows : LineRows := ∅
  fileNames : Array String

namespace LineState

/-- Adds the row that the registers describe; it replaces a row with its address. -/
def emit (s : LineState) : LineState :=
  let r := s.registers
  { s with rows := s.rows.insert r.address ⟨r.file, r.line, r.column⟩ }

/-- Runs an instruction; `path` gives the paths of files that the program defines. -/
def step (header : LineHeader) (path : FileRecord → String) (s : LineState) :
    LineInstruction → LineState
  | .special index => { s with registers := s.registers.special header index }.emit
  | .copy => s.emit
  | .advancePc count => { s with registers := s.registers.advance header count }
  | .advanceLine count => { s with registers := s.registers.advanceLine count }
  | .setFile file => { s with registers.file := file }
  | .setColumn column => { s with registers.column := column }
  | .constAddPc =>
    let count := (255 - header.opcodeBase) / header.lineRange
    { s with registers := s.registers.advance header (.ofNat count) }
  | .fixedAdvancePc count =>
    { s with registers.address := s.registers.address + .ofNat count }
  | .endSequence => { s with registers := {} }
  | .setAddress address => { s with registers.address := address }
  | .defineFile file => { s with fileNames := s.fileNames.push (path file) }
  | _ => s

def runProgram (header : LineHeader) (path : FileRecord → String) : LineState → Decoder LineState :=
  drain (fun s => s.step header path <$> LineInstruction.decode header)
    fun _ => (LineInstruction.advances_decode header).map _

end LineState

/-- An entry of the directory or file table of version 5. -/
structure PathRecord where
  path : String := ""
  directory : UInt64 := 0
deriving DecidableEq, Inhabited

namespace PathRecord

def decodePath (sections : DebugSections) (form : Form) : Decoder String := do
  let order := (← region).order
  match form with
  | .string => text
  | .lineStrp => do ofExcept (sections.textAt .lineStr (← offset) order)
  | .strp => do ofExcept (sections.textAt .str (← offset) order)
  | form => throw (.formMismatch form .string)

def decodeIndex (form : Form) : Decoder UInt64 :=
  match form with
  | .data1 => sized 1
  | .data2 => sized 2
  | .data4 => sized 4
  | .data8 => sized 8
  | .udata => uleb128
  | form => throw (.formMismatch form .constant)

/-- Decodes one field of an entry; only paths and directory indices are kept. -/
def decodeField (sections : DebugSections) (record : PathRecord) (field : UInt64 × Form) :
    Decoder PathRecord := do
  let (content, form) := field
  if content = 1 then
    return { record with path := ← decodePath sections form }
  else if content = 2 then
    return { record with directory := ← decodeIndex form }
  else
    form.skipValue 5
    return record

/-- Decodes the content and the form of a field. -/
def decodeFormat : Decoder (UInt64 × Form) := do
  let content ← uleb128
  let code ← uleb128
  return (content, .ofCode code)

/-- Decodes a table: the format of its entries, their number, and the entries. -/
def decodeTable (sections : DebugSections) : Decoder (Array PathRecord) := do
  let fieldCount ← unsigned 1
  let fields ← times fieldCount decodeFormat
  let count := (← uleb128).toNat
  times count (fields.toList.foldlM (decodeField sections) {})

end PathRecord

namespace LineTable

/-- The path of a file in a directory of the table; unknown directories stand for that of the
compilation. -/
def pathIn (compDir : String) (directories : Array String) (index : Option Nat) (name : String) :
    String :=
  joinSource ((index.bind (directories[·]?)).getD compDir) name

/-- The index of a directory of versions 2 to 4, where 0 is none. -/
def legacyIndex (directory : UInt64) : Option Nat :=
  if directory = 0 then none else some (directory.toNat - 1)

/-- The path of a file of versions 2 to 4. -/
def legacyPath (compDir : String) (directories : Array String) (file : FileRecord) : String :=
  pathIn compDir directories (legacyIndex file.directory) file.name

/-- Decodes a directory of versions 2 to 4; an empty one ends the list. -/
def decodeDirectory (compDir : String) : Decoder (Option String) := do
  let name ← text
  return if name.isEmpty then none else some (joinSource compDir name)

theorem advances_decodeDirectory (compDir : String) : (decodeDirectory compDir).Advances :=
  advances_text.bind fun _ => progresses_pure _

/-- Decodes a file of versions 2 to 4; an empty name ends the list. -/
def decodeFile (path : FileRecord → String) : Decoder (Option String) := do
  let name ← text
  if name.isEmpty then
    return none
  let file ← FileRecord.decodeAfterName name
  return some (path file)

theorem advances_decodeFile (path : FileRecord → String) : (decodeFile path).Advances := by
  refine advances_text.bind fun name => ?_
  split
  · exact progresses_pure _
  · exact (FileRecord.progresses_decodeAfterName name).bind fun _ => progresses_pure _

/-- Decodes the directories and files of versions 2 to 4. -/
def decodeLegacyFiles (compDir compName : String) : Decoder (Array String × Array String) := do
  let directories ← manyUntil (decodeDirectory compDir) (advances_decodeDirectory compDir)
  let path := legacyPath compDir directories
  let files ← manyUntil (decodeFile path) (advances_decodeFile path)
  return (directories, #[joinSource compDir compName] ++ files)

/-- Decodes the directories and files of version 5. -/
def decodeFiles (sections : DebugSections) (compDir : String) :
    Decoder (Array String × Array String) := do
  let directories := (← PathRecord.decodeTable sections).map fun d => joinSource compDir d.path
  let files := (← PathRecord.decodeTable sections).map fun f =>
    pathIn compDir directories (some f.directory.toNat) f.path
  return (directories, files)

/-- Decodes the part of a header that describes the instructions. -/
def decodeHeader (version : Nat) : Decoder LineHeader := do
  let minInstructionLength ← unsigned 1
  if 4 ≤ version then
    skip 1
  skip 1
  let lineBase ← signed 1
  let lineRange ← unsigned 1
  if lineRange = 0 then
    throw .zeroLineRange
  let opcodeBase ← unsigned 1
  let operandCounts ← bytes (opcodeBase - 1)
  return { minInstructionLength, lineBase, lineRange, opcodeBase, operandCounts }

/-- Decodes a table from the length of its header on. -/
def decodeFromHeader (sections : DebugSections) (source : LineSource) (version : Nat) :
    Decoder LineTable := do
  let headerLength := (← offset).toNat
  ensure headerLength
  let program := (← position) + headerLength
  let header ← decodeHeader version
  let compDir := source.compDir.getD ""
  let (directories, files) ←
    if 5 ≤ version then decodeFiles sections compDir
    else decodeLegacyFiles compDir (source.compName.getD "")
  seek program
  let path := legacyPath compDir directories
  let final ← LineState.runProgram header path { fileNames := files }
  return { version, includeDirectories := directories, fileNames := final.fileNames,
           rows := final.rows }

/-- Decodes a table from its length on. -/
def decode (sections : DebugSections) (source : LineSource) : Decoder LineTable := do
  skipLength
  let version ← unsigned 2
  if version < 2 ∨ 5 < version then
    throw (.unsupportedVersion version)
  if 5 ≤ version then
    let addressSize ← unsigned 1
    skip 1
    withAddressSize addressSize (decodeFromHeader sections source version)
  else
    decodeFromHeader sections source version

/-- The line table that a unit names. -/
def load (sections : DebugSections) (source : LineSource) : Except Fault LineTable :=
  sections.decodeAt .line source.offset source.order do
    let region ← withAddressSize source.addressSize unit
    fun w _ => decode sections source { w with region } region.start

end LineTable

end StackSurvey.Dwarf
