import StackSurvey.Dwarf.Operation
import StackSurvey.Proofs.Dwarf.LineMachine
import StackSurvey.Proofs.Dwarf.NumberBytes

namespace StackSurvey.Dwarf

open Decoder

namespace Operation

/-- The opcodes that push an unsigned number, and the width of the number. -/
def unsignedWidths : List (UInt8 × Nat) := [(0x08, 1), (0x0a, 2), (0x0c, 4), (0x0e, 8)]

/-- The opcodes that push a signed number, and the width of the number. -/
def signedWidths : List (UInt8 × Nat) := [(0x09, 1), (0x0b, 2), (0x0d, 4), (0x0f, 8)]

/-- The bytes of the operations that push a word. -/
inductive Pushes (order : ByteOrder) (addressSize : Nat) : UInt64 → List UInt8 → Prop
  | literal {n : UInt8} (h : n < 32) : Pushes order addressSize n.toUInt64 [0x30 + n]
  | address {value : UInt64} (hsize : isAddressSize addressSize = true)
      (hfits : value.toNat < 1 <<< (8 * addressSize)) :
      Pushes order addressSize value (0x03 :: order.encode addressSize value.toNat)
  | unsigned {value : UInt64} {opcode : UInt8} {width : Nat}
      (hopcode : (opcode, width) ∈ unsignedWidths) (hfits : value.toNat < 1 <<< (8 * width)) :
      Pushes order addressSize value (opcode :: order.encode width value.toNat)
  | signed {value : UInt64} {opcode : UInt8} {width : Nat}
      (hopcode : (opcode, width) ∈ signedWidths)
      (hlow : -(1 <<< (8 * width - 1) : Nat) ≤ value.toInt64.toInt)
      (hhigh : value.toInt64.toInt < (1 <<< (8 * width - 1) : Nat)) :
      Pushes order addressSize value
        (opcode :: order.encode width (complement width value.toInt64.toInt))
  | unsignedGroup {group : List UInt8} (h : Leb128.IsGroup group) :
      Pushes order addressSize (Leb128.unsigned group) (0x10 :: group)
  | signedGroup {group : List UInt8} (h : Leb128.IsGroup group) :
      Pushes order addressSize (Leb128.signed group).toUInt64 (0x11 :: group)

/-- The bytes of the operations that are not branches. -/
inductive Encodes (order : ByteOrder) (addressSize : Nat) : Operation → List UInt8 → Prop
  | push {value : UInt64} {code : List UInt8} (h : Pushes order addressSize value code) :
      Encodes order addressSize (push value) code
  | dup : Encodes order addressSize dup [0x12]
  | drop : Encodes order addressSize drop [0x13]
  | dupSecond : Encodes order addressSize dupSecond [0x14]
  | pick (index : UInt8) : Encodes order addressSize (pick index.toNat) [0x15, index]
  | swap : Encodes order addressSize swap [0x16]
  | rot : Encodes order addressSize rot [0x17]
  | unary (op : UnaryOp) : Encodes order addressSize (unary op) [op.opcode]
  | plusConst {group : List UInt8} (h : Leb128.IsGroup group) :
      Encodes order addressSize (plusConst (Leb128.unsigned group)) (0x23 :: group)
  | binary (op : BinaryOp) : Encodes order addressSize (binary op) [op.opcode]
  | register {n : UInt8} (h : n < 32) : Encodes order addressSize (register n.toUInt64) [0x50 + n]
  | registerGroup {group : List UInt8} (h : Leb128.IsGroup group) :
      Encodes order addressSize (register (Leb128.unsigned group)) (0x90 :: group)
  | implicitValue {group bytes : List UInt8} (h : Leb128.IsGroup group)
      (hlength : (Leb128.unsigned group).toNat = bytes.length) :
      Encodes order addressSize (implicitValue bytes) (0x9e :: (group ++ bytes))
  | stackValue : Encodes order addressSize stackValue [0x9f]
  | nop : Encodes order addressSize nop [0x96]

variable {r : Region}

theorem reads_decode {opcode : UInt8} {bytes : List UInt8} {op : Operation}
    (h : (operands opcode).Reads r bytes op) : decode.Reads r (opcode :: bytes) op :=
  (reads_byte opcode).bind h

/-- Thirty-two opcodes in a row, and the place of one among them. -/
theorem bounds_of_lt (base : UInt8) {n : UInt8} (hbase : base.toNat + 32 ≤ 256) (h : n < 32) :
    base ≤ base + n ∧ (base + n).toNat < base.toNat + 32 ∧ base + n - base = n := by
  have hlt : n.toNat < 32 := UInt8.lt_iff_toNat_lt.1 h
  have hval : (base + n).toNat = base.toNat + n.toNat := by
    rw [UInt8.toNat_add]
    exact Nat.mod_eq_of_lt (show base.toNat + n.toNat < 256 by omega)
  refine ⟨?_, ?_, ?_⟩
  · rw [UInt8.le_iff_toNat_le, hval]
    exact Nat.le_add_right ..
  · rw [hval]
    exact Nat.add_lt_add_left hlt _
  · rw [UInt8.add_comm, UInt8.add_sub_cancel]

theorem operands_literal {n : UInt8} (h : n < 32) :
    operands (0x30 + n) = pure (push n.toUInt64) := by
  obtain ⟨hlow, hhigh, hsub⟩ := bounds_of_lt 0x30 (by decide) h
  unfold operands
  rw [if_pos ⟨hlow, UInt8.lt_iff_toNat_lt.2 hhigh⟩, hsub]

theorem operands_register {n : UInt8} (h : n < 32) :
    operands (0x50 + n) = pure (register n.toUInt64) := by
  obtain ⟨hlow, hhigh, hsub⟩ := bounds_of_lt 0x50 (by decide) h
  have hliteral : ¬ (0x30 ≤ 0x50 + n ∧ 0x50 + n < 0x50) := fun hn =>
    absurd (UInt8.lt_iff_toNat_lt.1 hn.2) (Nat.not_lt.2 (UInt8.le_iff_toNat_le.1 hlow))
  unfold operands
  rw [if_neg hliteral, if_pos ⟨hlow, UInt8.lt_iff_toNat_lt.2 hhigh⟩, hsub]

theorem reads_push_word (value : UInt64) :
    (push <$> word).Reads r (r.order.encode 8 value.toNat) (push value) := by
  have hlt : value.toNat < 1 <<< (8 * 8) := value.toNat_lt
  have hread := (reads_encode (r := r) hlt).map (f := UInt64.ofNat)
  rw [UInt64.ofNat_toNat] at hread
  exact hread.map

theorem reads_operands_unsigned {opcode : UInt8} {width : Nat} {value : UInt64}
    (hopcode : (opcode, width) ∈ unsignedWidths) (hfits : value.toNat < 1 <<< (8 * width)) :
    (operands opcode).Reads r (r.order.encode width value.toNat) (push value) := by
  have hnumber := (reads_encode (r := r) hfits).map (f := fun n => push (.ofNat n))
  rw [UInt64.ofNat_toNat] at hnumber
  simp only [unsignedWidths, List.mem_cons, Prod.mk.injEq, List.not_mem_nil, or_false] at hopcode
  obtain ⟨rfl, rfl⟩ | ⟨rfl, rfl⟩ | ⟨rfl, rfl⟩ | ⟨rfl, rfl⟩ := hopcode
  · exact hnumber
  · exact hnumber
  · exact hnumber
  · exact reads_push_word value

theorem wordOfInt_toInt64 (value : UInt64) : wordOfInt value.toInt64.toInt = value :=
  congrArg Int64.toUInt64 (Int64.ofInt_toInt value.toInt64)

/-- Eight bytes of a signed number are those of its word. -/
theorem complement_eight (value : UInt64) : complement 8 value.toInt64.toInt = value.toNat := by
  have hvalue := congrArg UInt64.toNat (ofInt_toInt value.toInt64)
  have hmodulus : ((1 <<< (8 * 8) : Nat) : Int) = 2 ^ 64 := by decide
  rw [UInt64.ofInt, UInt64.toNat_ofNat'] at hvalue
  rw [complement, hmodulus]
  refine Eq.trans ?_ hvalue
  omega

theorem reads_push_signed {width : Nat} {value : UInt64} (hpos : 0 < width)
    (hlow : -(1 <<< (8 * width - 1) : Nat) ≤ value.toInt64.toInt)
    (hhigh : value.toInt64.toInt < (1 <<< (8 * width - 1) : Nat)) :
    ((fun n => push (wordOfInt n)) <$> signed width).Reads r
      (r.order.encode width (complement width value.toInt64.toInt)) (push value) := by
  have hread := (reads_signed (r := r) hpos hlow hhigh).map (f := fun n => push (wordOfInt n))
  rw [wordOfInt_toInt64] at hread
  exact hread

theorem reads_operands_signed {opcode : UInt8} {width : Nat} {value : UInt64}
    (hopcode : (opcode, width) ∈ signedWidths)
    (hlow : -(1 <<< (8 * width - 1) : Nat) ≤ value.toInt64.toInt)
    (hhigh : value.toInt64.toInt < (1 <<< (8 * width - 1) : Nat)) :
    (operands opcode).Reads r (r.order.encode width (complement width value.toInt64.toInt))
      (push value) := by
  simp only [signedWidths, List.mem_cons, Prod.mk.injEq, List.not_mem_nil, or_false] at hopcode
  obtain ⟨rfl, rfl⟩ | ⟨rfl, rfl⟩ | ⟨rfl, rfl⟩ | ⟨rfl, rfl⟩ := hopcode
  · exact reads_push_signed (by decide) hlow hhigh
  · exact reads_push_signed (by decide) hlow hhigh
  · exact reads_push_signed (by decide) hlow hhigh
  · rw [complement_eight]
    exact reads_push_word value

theorem Pushes.reads_decode {value : UInt64} {code : List UInt8}
    (h : Pushes r.order r.addressSize value code) : decode.Reads r code (push value) := by
  cases h with
  | literal h =>
    apply Operation.reads_decode
    rw [operands_literal h]
    exact reads_pure _
  | address hsize hfits =>
    have hread := reads_address hsize hfits
    rw [UInt64.ofNat_toNat] at hread
    exact Operation.reads_decode hread.map
  | unsigned hopcode hfits => exact Operation.reads_decode (reads_operands_unsigned hopcode hfits)
  | signed hopcode hlow hhigh =>
    exact Operation.reads_decode (reads_operands_signed hopcode hlow hhigh)
  | unsignedGroup h => exact Operation.reads_decode (reads_uleb128 h).map
  | signedGroup h => exact Operation.reads_decode (reads_sleb128 h).map

theorem reads_unary (op : UnaryOp) : decode.Reads r [op.opcode] (unary op) := by
  apply reads_decode
  cases op <;> exact reads_pure _

theorem reads_binary (op : BinaryOp) : decode.Reads r [op.opcode] (binary op) := by
  apply reads_decode
  cases op <;> exact reads_pure _

theorem reads_plusConst {group : List UInt8} (h : Leb128.IsGroup group) :
    decode.Reads r (0x23 :: group) (plusConst (Leb128.unsigned group)) :=
  reads_decode (reads_uleb128 h).map

theorem reads_stackValue : decode.Reads r [0x9f] stackValue :=
  reads_decode (reads_pure _)

theorem Encodes.reads_decode {op : Operation} {code : List UInt8}
    (h : Encodes r.order r.addressSize op code) :
    decode.Reads r code op := by
  cases h with
  | push h => exact h.reads_decode
  | dup | drop | dupSecond | swap | rot | nop => exact Operation.reads_decode (reads_pure _)
  | pick index => exact Operation.reads_decode (reads_unsigned_one index).map
  | unary op => exact reads_unary op
  | plusConst h => exact reads_plusConst h
  | binary op => exact reads_binary op
  | register h =>
    apply Operation.reads_decode
    rw [operands_register h]
    exact reads_pure _
  | registerGroup h => exact Operation.reads_decode (reads_uleb128 h).map
  | @implicitValue group bytes h hlength =>
    have hbytes := reads_bytes (r := r) bytes
    rw [← hlength] at hbytes
    exact Operation.reads_decode ((reads_uleb128 h).bind hbytes.map)
  | stackValue => exact reads_stackValue

end Operation

end StackSurvey.Dwarf
