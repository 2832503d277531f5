import StackSurvey.Dwarf.DebugUnit

namespace StackSurvey.Dwarf

namespace RangeList

open Decoder

/-- The list read so far, and the base of the items that follow. -/
structure Partial where
  base : UInt64
  ranges : Array (UInt64 × UInt64) := #[]

/-- The address that says that an item sets the base. -/
def marker (addressSize : Nat) : UInt64 := .ofNat (1 <<< (8 * addressSize) - 1)

/-- Adds an item; an empty range adds nothing. -/
def Partial.add (s : Partial) (addressSize : Nat) (first second : UInt64) : Partial :=
  if first = marker addressSize then { s with base := second }
  else if first < second then
    { s with ranges := s.ranges.push (s.base + first, s.base + second) }
  else s

/-- Decodes an item; two zeros end a list. -/
def decodeItem (addressSize : Nat) (s : Partial) :
    Decoder (Partial ⊕ List (UInt64 × UInt64)) := do
  let first ← address
  let second ← address
  return if first = 0 ∧ second = 0 then .inr s.ranges.toList
    else .inl (s.add addressSize first second)

theorem advances_decodeItem (addressSize : Nat) (s : Partial) :
    (decodeItem addressSize s).Advances :=
  advances_address.bind fun _ => advances_address.progresses.bind fun _ => progresses_pure _

def decode (addressSize : Nat) (base : UInt64) : Decoder (List (UInt64 × UInt64)) :=
  withAddressSize addressSize
    (iterate (decodeItem addressSize) (advances_decodeItem addressSize) { base })

end RangeList

/-- The range list at an offset of `.debug_ranges`. -/
def DebugUnit.rangeList (u : DebugUnit) (offset base : UInt64) :
    Except Fault (List (UInt64 × UInt64)) :=
  u.sections.decodeAt .ranges offset u.region.order (RangeList.decode u.header.addressSize base)

end StackSurvey.Dwarf
