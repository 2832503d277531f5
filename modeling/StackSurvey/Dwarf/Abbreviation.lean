import StackSurvey.Dwarf.Decoder
import Std.Data.HashMap

namespace StackSurvey.Dwarf

open Decoder

/-- How one attribute of an entry is encoded. -/
structure AttributeSpec where
  name : UInt64
  form : Form
  /-- What the values can be read as. -/
  kind : FormClass := form.formClass
  /-- The value of an attribute that the table itself stores. -/
  implicitConst : Option Int64 := none
deriving DecidableEq, Inhabited

namespace AttributeSpec

/-- Decodes a spec; name and form zero end a list of specs. -/
def decode : Decoder (Option AttributeSpec) := do
  let name ← uleb128
  let code ← uleb128
  if name = 0 ∧ code = 0 then
    return none
  let form := Form.ofCode code
  if form = .implicitConst then
    return some { name, form, kind := form.formClass, implicitConst := some (← sleb128) }
  return some { name, form, kind := form.formClass }

theorem advances_decode : decode.Advances := by
  refine advances_uleb128.bind fun name => advances_uleb128.progresses.bind fun code => ?_
  split
  · exact progresses_pure _
  · dsimp only
    split
    · exact advances_sleb128.progresses.bind fun _ => progresses_pure _
    · exact progresses_pure _

end AttributeSpec

/-- What the entries with one code share. -/
structure Abbreviation where
  code : UInt64
  tag : UInt64
  hasChildren : Bool
  specs : List AttributeSpec
deriving DecidableEq, Inhabited

namespace Abbreviation

/-- Decodes an abbreviation; code zero ends a table. -/
def decode : Decoder (Option Abbreviation) := do
  let code ← uleb128
  if code = 0 then
    return none
  let tag ← uleb128
  let children ← byte
  let specs ← manyUntil AttributeSpec.decode AttributeSpec.advances_decode
  return some { code, tag, hasChildren := children != 0, specs := specs.toList }

end Abbreviation

theorem Abbreviation.advances_decode : Abbreviation.decode.Advances := by
  refine advances_uleb128.bind fun code => ?_
  split
  · exact progresses_pure _
  · exact advances_uleb128.progresses.bind fun _ => advances_byte.progresses.bind fun _ =>
      (progresses_iterate _ _ _).bind fun _ => progresses_pure _

/-- Abbreviations by code. -/
structure AbbreviationTable where
  byCode : Std.HashMap UInt64 Abbreviation
deriving Inhabited

namespace AbbreviationTable

/-- The table of a list of abbreviations, where a later one replaces an earlier one. -/
def ofList (entries : List Abbreviation) : AbbreviationTable :=
  ⟨entries.foldl (fun byCode a => byCode.insert a.code a) ∅⟩

def decode : Decoder AbbreviationTable := do
  let entries ← manyUntil Abbreviation.decode Abbreviation.advances_decode
  return ofList entries.toList

def get (table : AbbreviationTable) (code : UInt64) : Except Fault Abbreviation :=
  match table.byCode[code]? with
  | some a => .ok a
  | none => .error (.unknownAbbreviation code)

def size (table : AbbreviationTable) : Nat := table.byCode.size

end AbbreviationTable

end StackSurvey.Dwarf
