import StackSurvey.Dwarf.Decoder

namespace StackSurvey.Dwarf

/-- The debug sections that a file has. -/
structure DebugSections where
  info : Option ByteArray := none
  abbreviations : Option ByteArray := none
  loc : Option ByteArray := none
  line : Option ByteArray := none
  lineStr : Option ByteArray := none
  str : Option ByteArray := none
  ranges : Option ByteArray := none

namespace DebugSections

def get? (sections : DebugSections) : DebugSection → Option ByteArray
  | .info => sections.info
  | .abbreviations => sections.abbreviations
  | .loc => sections.loc
  | .line => sections.line
  | .lineStr => sections.lineStr
  | .str => sections.str
  | .ranges => sections.ranges

/-- Decodes a section from an offset on; the offset must lie inside it. -/
def decodeAt {α : Type} (sections : DebugSections) (name : DebugSection) (offset : UInt64)
    (order : ByteOrder) (d : Decoder α) : Except Fault α :=
  match sections.get? name with
  | none => .error (.missingSection name)
  | some data =>
    if offset.toNat < data.size then
      match d ⟨data, .whole data order⟩ offset.toNat with
      | .ok a _ => .ok a
      | .error fault _ => .error fault
    else
      .error (.invalidOffset name offset.toNat)

/-- The text at an offset of a section. -/
def textAt (sections : DebugSections) (name : DebugSection) (offset : UInt64) (order : ByteOrder) :
    Except Fault String :=
  sections.decodeAt name offset order Decoder.text

end DebugSections

end StackSurvey.Dwarf
