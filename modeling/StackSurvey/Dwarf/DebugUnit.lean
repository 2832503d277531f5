import StackSurvey.Dwarf.Abbreviation
import StackSurvey.Dwarf.DebugSections

namespace StackSurvey.Dwarf

open Decoder

/-- What the header of a unit says. -/
structure UnitHeader where
  version : Nat
  /-- Zero before version 5. -/
  unitType : Nat
  addressSize : Nat
  abbreviationOffset : UInt64
  /-- Where the first entry of the unit begins. -/
  rootOffset : Nat
deriving DecidableEq, Inhabited

namespace UnitHeader

/-- Moves past what the headers of skeleton and type units add. -/
def skipExtras (unitType : Nat) : Decoder Unit := do
  if unitType = 4 ∨ unitType = 5 then
    skip 8
  else if unitType = 2 ∨ unitType = 6 then
    skip 8
    let _ ← offset

def decode : Decoder UnitHeader := do
  skipLength
  let version ← unsigned 2
  if version < 2 ∨ 5 < version then
    throw (.unsupportedVersion version)
  let (unitType, addressSize, abbreviationOffset) ←
    if 5 ≤ version then do
      let unitType ← unsigned 1
      let addressSize ← unsigned 1
      let abbreviationOffset ← offset
      skipExtras unitType
      pure (unitType, addressSize, abbreviationOffset)
    else do
      let abbreviationOffset ← offset
      let addressSize ← unsigned 1
      pure (0, addressSize, abbreviationOffset)
  if !isAddressSize addressSize then
    throw (.unsupportedAddressSize addressSize)
  return { version, unitType, addressSize, abbreviationOffset, rootOffset := ← position }

end UnitHeader

/-- A unit of `.debug_info` with what is needed to find its entries. -/
structure DebugUnit where
  /-- The place of the unit among the units of its file. -/
  index : Nat
  header : UnitHeader
  region : Region
  info : ByteArray
  sections : DebugSections
  abbreviations : Except Fault AbbreviationTable

namespace DebugUnit

def loadAbbreviations (sections : DebugSections) (order : ByteOrder) (header : UnitHeader) :
    Except Fault AbbreviationTable :=
  sections.decodeAt .abbreviations header.abbreviationOffset order AbbreviationTable.decode

/-- The unit in a region of `.debug_info`. -/
def ofRegion (index : Nat) (sections : DebugSections) (info : ByteArray) (region : Region) :
    Except Fault DebugUnit :=
  match UnitHeader.decode ⟨info, region⟩ region.start with
  | .ok header _ =>
    .ok
      { index, header, info, sections
        region := { region with addressSize := header.addressSize }
        abbreviations := loadAbbreviations sections region.order header }
  | .error fault _ => .error fault

def offset (u : DebugUnit) : Nat := u.region.start

/-- True of the offsets where an entry of the unit may begin. -/
def containsOffset (u : DebugUnit) (offset : Nat) : Bool :=
  u.header.rootOffset ≤ offset && offset < u.region.stop

def window (u : DebugUnit) : Window := ⟨u.info, u.region⟩

/-- Decodes the unit's bytes from an offset on. -/
def decodeAt {α : Type} (u : DebugUnit) (offset : Nat) (d : Decoder α) : Except Fault α :=
  match d u.window offset with
  | .ok a _ => .ok a
  | .error fault _ => .error fault

end DebugUnit

end StackSurvey.Dwarf
