import StackSurvey.Elf.Image
import StackSurvey.SymbolTable

namespace StackSurvey.Elf

open Dwarf (Decoder)

/-- An entry of a symbol table. -/
structure SymbolEntry where
  nameOffset : Nat
  value : UInt64
  size : UInt64
  info : UInt8
  other : UInt8
  sectionIndex : Nat
deriving DecidableEq, Inhabited

/-- Decodes an entry; the fields stand in an order that depends on the class. -/
def SymbolEntry.decoder : FileClass → Decoder SymbolEntry
  | .bits32 => do
    let nameOffset ← .unsigned 4
    let value ← .address
    let size ← .address
    let info ← .byte
    let other ← .byte
    let sectionIndex ← .unsigned 2
    return { nameOffset, value, size, info, other, sectionIndex }
  | .bits64 => do
    let nameOffset ← .unsigned 4
    let info ← .byte
    let other ← .byte
    let sectionIndex ← .unsigned 2
    let value ← .address
    let size ← .address
    return { nameOffset, value, size, info, other, sectionIndex }

namespace Image

/-- The label of a section that a symbol belongs to: its name, or a word for the special
indices. -/
def sectionLabel? (f : Image) (index : Nat) : Option String :=
  match index with
  | 0 => some "UND"
  | 0xfff1 => some "ABS"
  | 0xfff2 => some "COM"
  | _ => f.sections[index]?.map (·.name)

/-- The symbol of an entry. Symbols without a name are left out, except that those of sections
are named after the section. -/
def symbol? (f : Image) (names : Option ByteArray) (e : SymbolEntry) : Option Symbol :=
  let kind := SymbolKind.ofInfo e.info
  let sectionName := f.sectionLabel? e.sectionIndex
  let name := (names.bind (textAt? · e.nameOffset)).getD ""
  if name.isEmpty && kind != .section then
    none
  else
    some
      { name := if name.isEmpty then sectionName.getD "" else name
        value := e.value, size := e.size, kind
        binding := .ofInfo e.info
        visibility := e.other.toNat % 4
        sectionIndex := e.sectionIndex, sectionName }

/-- Adds the symbols of `n` entries to a table; the first entry stands at `offset`. -/
def addSymbols (f : Image) (names : Option ByteArray) (entrySize : UInt64) :
    Nat → UInt64 → SymbolTable → Except Fault SymbolTable
  | 0, _, t => return t
  | n + 1, offset, t => do
    let entry ← f.decodeAt f.data offset (SymbolEntry.decoder f.fileClass)
    let t := match f.symbol? names entry with
      | some symbol => t.push { symbol }
      | none => t
    f.addSymbols names entrySize n (offset + entrySize) t

/-- The symbols of a file, those for the linker if it has no others. The first entry of a symbol
table is reserved. -/
def symbolTable (f : Image) : Except Fault SymbolTable := do
  let t := SymbolTable.empty f.sections.size
  let some symbols := f.sectionNamed? ".symtab" <|> f.sectionNamed? ".dynsym" | return t
  let some strings := f.sections[symbols.link]? | throw .noStringTable
  let entrySize := if symbols.entrySize = 0 then f.fileClass.symbolSize else symbols.entrySize
  let count := (symbols.size / entrySize).toNat
  f.addSymbols (strings.contents? f.data) entrySize (count - 1) (symbols.offset + entrySize) t

end Image

end StackSurvey.Elf
