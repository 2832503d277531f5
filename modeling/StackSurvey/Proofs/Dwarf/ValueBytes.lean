import StackSurvey.Dwarf.FormExtent
import StackSurvey.Proofs.Dwarf.FormCodes
import StackSurvey.Proofs.Dwarf.Reading

namespace StackSurvey.Dwarf

open Decoder

variable {r : Region} {version : Nat}

/-- The bytes that have an extent in a region of units of some version. -/
inductive Extent.Spans (r : Region) (version : Nat) : Extent → List UInt8 → Prop
  | elsewhere : Spans r version .elsewhere []
  | fixed (bytes : List UInt8) : Spans r version (.fixed bytes.length) bytes
  | address {bytes : List UInt8} (hsize : isAddressSize r.addressSize = true)
      (h : bytes.length = r.addressSize) : Spans r version .address bytes
  | offset {bytes : List UInt8} (h : bytes.length = r.format.offsetSize) :
      Spans r version .offset bytes
  | unitReference {bytes : List UInt8} (h : bytes.length = unitReferenceSize r version) :
      Spans r version .unitReference bytes
  | signedGroup {group : List UInt8} (h : Leb128.IsGroup group) :
      Spans r version .signedGroup group
  | unsignedGroup {group : List UInt8} (h : Leb128.IsGroup group) :
      Spans r version .unsignedGroup group
  | counted {count bytes : List UInt8} (h : r.order.decode count = bytes.length) :
      Spans r version (.counted count.length) (count ++ bytes)
  | groupCounted {group bytes : List UInt8} (hgroup : Leb128.IsGroup group)
      (h : (Leb128.unsigned group).toNat = bytes.length) :
      Spans r version .groupCounted (group ++ bytes)
  | terminated {text : List UInt8} (h : 0 ∉ text) : Spans r version .terminated (text ++ [0])

theorem Extent.Spans.reads_skip {extent : Extent} {bytes : List UInt8}
    (h : extent.Spans r version bytes) : (extent.skip version).Reads r bytes () := by
  cases h with
  | elsewhere => exact reads_pure ()
  | fixed => exact Decoder.reads_skip bytes
  | address hsize h =>
    refine reads_region.bind ?_
    rw [if_pos hsize, ← h]
    exact Decoder.reads_skip bytes
  | offset h =>
    refine reads_region.bind ?_
    rw [← h]
    exact Decoder.reads_skip bytes
  | unitReference h =>
    refine reads_region.bind ?_
    rw [← h]
    exact Decoder.reads_skip bytes
  | signedGroup h => exact (reads_sleb128 h).map
  | unsignedGroup h => exact (reads_uleb128 h).map
  | counted h =>
    refine (reads_unsigned _).bind ?_
    rw [h]
    exact Decoder.reads_skip _
  | groupCounted hgroup h =>
    refine (reads_uleb128 hgroup).bind ?_
    rw [h]
    exact Decoder.reads_skip _
  | terminated h => exact (reads_terminated h).map

namespace Form

/-- The width of a constant. -/
def dataWidth? : Form → Option Nat
  | data1 => some 1
  | data2 => some 2
  | data4 => some 4
  | data8 => some 8
  | _ => none

/-- The width of a distance from the start of the unit. -/
def distanceWidth? : Form → Option Nat
  | ref1 => some 1
  | ref2 => some 2
  | ref4 => some 4
  | ref8 => some 8
  | _ => none

/-- The width of the count of bytes that a block begins with. -/
def countWidth? : Form → Option Nat
  | block1 => some 1
  | block2 => some 2
  | block4 => some 4
  | _ => none

/-- The section of a text that the entry gives the offset of. -/
def textSection? : Form → Option DebugSection
  | strp => some .str
  | lineStrp => some .lineStr
  | _ => none

section Widths

variable {form : Form} {width : Nat}

theorem extent_of_dataWidth? (h : form.dataWidth? = some width) :
    form.extent = .fixed width ∧ 0 < width ∧ width ≤ 8 := by
  cases form <;> cases h <;> decide

theorem extent_of_distanceWidth? (h : form.distanceWidth? = some width) :
    form.extent = .fixed width ∧ 0 < width ∧ width ≤ 8 := by
  cases form <;> cases h <;> decide

theorem extent_of_countWidth? (h : form.countWidth? = some width) :
    form.extent = .counted width ∧ 0 < width ∧ width ≤ 8 := by
  cases form <;> cases h <;> decide

theorem extent_of_textSection? {source : DebugSection} (h : form.textSection? = some source) :
    form.extent = .offset := by
  cases form <;> cases h <;> rfl

end Widths

/-- The bytes of a value of a form. An indirect value begins with the code of its own form. -/
inductive Encodes (r : Region) (version : Nat) : Form → List UInt8 → Prop
  | direct {form : Form} {bytes : List UInt8} (hform : form ≠ .indirect)
      (h : form.extent.Spans r version bytes) : Encodes r version form bytes
  | indirect {form : Form} {group bytes : List UInt8} (hgroup : Leb128.IsGroup group)
      (hform : form.HasCode (Leb128.unsigned group)) (h : Encodes r version form bytes) :
      Encodes r version .indirect (group ++ bytes)

theorem follow_of_ne {form : Form} (h : form ≠ .indirect) : form.follow = pure form := by
  funext w pos
  rw [follow, if_neg h]
  rfl

/-- An indirection is one step. -/
theorem follow_indirect : follow .indirect = uleb128 >>= fun code => (ofCode code).follow := by
  funext w pos
  rw [follow, if_pos rfl]
  split
  · rw [bind_of_eq_ok _ ‹_›]
  · rw [bind_of_eq_error _ ‹_›]

theorem Encodes.reads_skipValue {form : Form} {bytes : List UInt8}
    (h : form.Encodes r version bytes) : (form.skipValue version).Reads r bytes () := by
  induction h with
  | direct hform h =>
    rw [skipValue, follow_of_ne hform]
    exact (reads_pure _).bind h.reads_skip
  | indirect hgroup hform h ih =>
    obtain rfl := ofCode_eq_iff.2 hform
    rw [skipValue, follow_indirect, bind_assoc]
    exact (reads_uleb128 hgroup).bind ih

end Form

end StackSurvey.Dwarf
