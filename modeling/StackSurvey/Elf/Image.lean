import StackSurvey.Dwarf.DebugSections
import StackSurvey.Elf.Header

namespace StackSurvey.Elf

open Dwarf (DebugSections)

/-- An ELF file. -/
structure Image extends Encoding where
  data : ByteArray
  machine : Nat
  sections : Array SectionHeader

namespace Image

/-- Decodes `n` section headers from an offset on. -/
def sectionHeaders (e : Encoding) (data : ByteArray) :
    Nat → UInt64 → Array SectionHeader → Except Fault (Array SectionHeader)
  | 0, _, headers => return headers
  | n + 1, offset, headers => do
    let header ← e.decodeAt data offset SectionHeader.decoder
    sectionHeaders e data n (offset + UInt64.ofNat e.fileClass.sectionHeaderSize)
      (headers.push header)

/-- Names section headers after the string table among them that `index` selects. -/
def nameSections (data : ByteArray) (index : Nat) (headers : Array SectionHeader) :
    Array SectionHeader :=
  match headers[index]? with
  | none => headers
  | some names =>
    let table := names.contents? data
    headers.map fun h => { h with name := (table.bind (textAt? · h.nameOffset)).getD "" }

/-- The sections of a file. Numbers that are too large for the file header stand in the first
section header. -/
def sectionTable (e : Encoding) (data : ByteArray) (header : FileHeader) :
    Except Fault (Array SectionHeader) := do
  if header.tableOffset = 0 then
    return #[]
  if header.entrySize ≠ e.fileClass.sectionHeaderSize then
    throw (.headerSize header.entrySize)
  let first ← e.decodeAt data header.tableOffset SectionHeader.decoder
  let count := if header.count = 0 then first.size.toNat else header.count
  let stop := header.tableOffset.toNat + count * header.entrySize
  if 0x10000000000000000 ≤ stop then
    throw .tableSizeOverflow
  if data.size < stop then
    throw (.tableBeyondEnd count header.tableOffset)
  let nameIndex := if header.nameIndex = 0xffff then first.link else header.nameIndex
  return nameSections data nameIndex (← sectionHeaders e data count header.tableOffset #[])

def ofFile (data : ByteArray) : Except Fault Image := do
  let e ← Encoding.ofFile data
  let header ← e.decodeAt data 16 FileHeader.decoder
  return { e with
    data, machine := header.machine, sections := ← sectionTable e data header }

/-- The last section with a name. -/
def sectionNamed? (f : Image) (name : String) : Option SectionHeader :=
  if name.isEmpty then none else f.sections.findRev? (·.name == name)

/-- The bytes of the last section with a name. -/
def contents? (f : Image) (name : String) : Option ByteArray := do
  (← f.sectionNamed? name).contents? f.data

def debugSections (f : Image) : DebugSections where
  info := f.contents? ".debug_info"
  abbreviations := f.contents? ".debug_abbrev"
  loc := f.contents? ".debug_loc"
  line := f.contents? ".debug_line"
  lineStr := f.contents? ".debug_line_str"
  str := f.contents? ".debug_str"
  ranges := f.contents? ".debug_ranges"

def hasDebugInfo (f : Image) : Bool := (f.contents? ".debug_info").isSome

end Image

end StackSurvey.Elf
