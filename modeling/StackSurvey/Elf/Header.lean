import StackSurvey.Dwarf.Decoder

namespace StackSurvey.Elf

open Dwarf (Decoder Region)
open Text (hex)

/-- Why a file is refused. -/
inductive Fault where
  | notElf
  | unsupportedClass (code : UInt8)
  | unsupportedEncoding (code : UInt8)
  | offsetBeyondEnd (offset : UInt64)
  | headerSize (size : Nat)
  | tableSizeOverflow
  | tableBeyondEnd (count : Nat) (offset : UInt64)
  | noStringTable
  | undecodable (fault : Dwarf.Fault)
deriving DecidableEq, Inhabited

def Fault.message : Fault → String
  | notElf => "not an ELF file"
  | unsupportedClass code => s!"unsupported ELF class {code}"
  | unsupportedEncoding code => s!"unsupported ELF data encoding {code}"
  | offsetBeyondEnd offset => s!"offset {hex offset.toNat} beyond end of file"
  | headerSize size => s!"unexpected section header size {size}"
  | tableSizeOverflow => "section header table size overflows"
  | tableBeyondEnd count offset =>
    s!"{count} section headers at {hex offset.toNat} run past the end of the file"
  | noStringTable => "symbol table has no string table"
  | undecodable fault => fault.message

/-- Width of the addresses in a file. -/
inductive FileClass where
  | bits32
  | bits64
deriving DecidableEq, Inhabited

namespace FileClass

def addressSize : FileClass → Nat
  | bits32 => 4
  | bits64 => 8

def sectionHeaderSize : FileClass → Nat
  | bits32 => 40
  | bits64 => 64

/-- Bytes in an entry of a symbol table. -/
def symbolSize : FileClass → UInt64
  | bits32 => 16
  | bits64 => 24

end FileClass

/-- How a file writes numbers. -/
structure Encoding where
  fileClass : FileClass
  order : ByteOrder
deriving DecidableEq, Inhabited

namespace Encoding

/-- The encoding that the first 16 bytes of a file announce. -/
def ofFile (data : ByteArray) : Except Fault Encoding := do
  if h : data.size < 16 then
    throw .notElf
  else if (data.extract 0 4).data ≠ #[0x7f, 0x45, 0x4c, 0x46] then
    throw .notElf
  else
    let fileClass ← match data[4] with
      | 1 => pure .bits32
      | 2 => pure .bits64
      | code => throw (.unsupportedClass code)
    let order ← match data[5] with
      | 1 => pure .little
      | 2 => pure .big
      | code => throw (.unsupportedEncoding code)
    return { fileClass, order }

/-- All of a file, in an encoding. -/
def region (e : Encoding) (data : ByteArray) : Region :=
  { Region.whole data e.order with addressSize := e.fileClass.addressSize }

/-- Decodes a file from an offset on, which may be its end. -/
def decodeAt {α : Type} (e : Encoding) (data : ByteArray) (offset : UInt64) (d : Decoder α) :
    Except Fault α :=
  if data.size < offset.toNat then
    throw (.offsetBeyondEnd offset)
  else
    match d ⟨data, e.region data⟩ offset.toNat with
    | .ok a _ => .ok a
    | .error fault _ => .error (.undecodable fault)

end Encoding

/-- What the header of a file says of its section table. -/
structure FileHeader where
  machine : Nat
  /-- Offset of the section table; zero if there is none. -/
  tableOffset : UInt64
  /-- Bytes in a section header. -/
  entrySize : Nat
  /-- Number of section headers; zero if the first of them holds it. -/
  count : Nat
  /-- Index of the section of names, or `0xffff` if the first section header holds it. -/
  nameIndex : Nat
deriving DecidableEq, Inhabited

/-- Decodes a file header from behind the first 16 bytes on. -/
def FileHeader.decoder : Decoder FileHeader := do
  let _kind ← .unsigned 2
  let machine ← .unsigned 2
  let _version ← .unsigned 4
  let _entryPoint ← .address
  let _programOffset ← .address
  let tableOffset ← .address
  let _flags ← .unsigned 4
  let _headerSize ← .unsigned 2
  let _programEntrySize ← .unsigned 2
  let _programCount ← .unsigned 2
  let entrySize ← .unsigned 2
  let count ← .unsigned 2
  let nameIndex ← .unsigned 2
  return { machine, tableOffset, entrySize, count, nameIndex }

/-- A section of a file. -/
structure SectionHeader where
  name : String := ""
  nameOffset : Nat
  kind : Nat
  flags : UInt64
  address : UInt64
  offset : UInt64
  size : UInt64
  link : Nat
  info : Nat
  entrySize : UInt64
deriving DecidableEq, Inhabited

namespace SectionHeader

/-- Decodes a section header, all but its name. -/
def decoder : Decoder SectionHeader := do
  let nameOffset ← .unsigned 4
  let kind ← .unsigned 4
  let flags ← .address
  let address ← .address
  let offset ← .address
  let size ← .address
  let link ← .unsigned 4
  let info ← .unsigned 4
  let _alignment ← .address
  let entrySize ← .address
  return { nameOffset, kind, flags, address, offset, size, link, info, entrySize }

/-- The bytes of a section, if it has any in the file and they lie inside it. -/
def contents? (h : SectionHeader) (data : ByteArray) : Option ByteArray :=
  let stop := h.offset.toNat + h.size.toNat
  if h.kind = 8 ∨ data.size < stop then none else some (data.extract h.offset.toNat stop)

end SectionHeader

/-- The text at an offset of a string table. -/
def textAt? (table : ByteArray) (offset : Nat) : Option String :=
  match Decoder.text ⟨table, .whole table .little⟩ offset with
  | .ok text _ => some text
  | .error _ _ => none

end StackSurvey.Elf
