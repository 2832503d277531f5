import StackSurvey.Dwarf.LineInstruction
import StackSurvey.Proofs.Dwarf.NumberBytes

namespace StackSurvey.Dwarf

open Decoder

theorem FileRecord.reads_decodeAfterName {r : Region} (name : String)
    {directory time size : List UInt8} (hdirectory : Leb128.IsGroup directory)
    (htime : Leb128.IsGroup time) (hsize : Leb128.IsGroup size) :
    (decodeAfterName name).Reads r (directory ++ (time ++ size))
      ⟨name, Leb128.unsigned directory⟩ :=
  (reads_uleb128 hdirectory).bind ((reads_uleb128 htime).bind
    ((reads_uleb128 hsize).bind_nil (reads_pure _)))

namespace LineInstruction

variable {r : Region} {header : LineHeader} {order : ByteOrder}

/-- The bytes of the operands of a standard opcode. An opcode without a meaning has as many unsigned
groups as the header declares. -/
inductive Operands (header : LineHeader) (order : ByteOrder) :
    Nat → LineInstruction → List UInt8 → Prop
  | copy : Operands header order 1 copy []
  | advancePc {group : List UInt8} (h : Leb128.IsGroup group) :
      Operands header order 2 (advancePc (Leb128.unsigned group)) group
  | advanceLine {group : List UInt8} (h : Leb128.IsGroup group) :
      Operands header order 3 (advanceLine (Leb128.signed group)) group
  | setFile {group : List UInt8} (h : Leb128.IsGroup group) :
      Operands header order 4 (setFile (Leb128.unsigned group)) group
  | setColumn {group : List UInt8} (h : Leb128.IsGroup group) :
      Operands header order 5 (setColumn (Leb128.unsigned group)) group
  | negateStatement : Operands header order 6 negateStatement []
  | setBasicBlock : Operands header order 7 setBasicBlock []
  | constAddPc : Operands header order 8 constAddPc []
  | fixedAdvancePc {count : Nat} (h : count < 1 <<< (8 * 2)) :
      Operands header order 9 (fixedAdvancePc count) (order.encode 2 count)
  | setPrologueEnd : Operands header order 10 setPrologueEnd []
  | setEpilogueBegin : Operands header order 11 setEpilogueBegin []
  | setIsa {group : List UInt8} (h : Leb128.IsGroup group) :
      Operands header order 12 (setIsa (Leb128.unsigned group)) group
  | unknown {opcode : Nat} {count : UInt8} {groups : List (List UInt8)} (hopcode : 12 < opcode)
      (hcount : header.operandCounts[opcode - 1]? = some count)
      (hlength : groups.length = count.toNat) (hgroups : ∀ group ∈ groups, Leb128.IsGroup group) :
      Operands header order opcode (unknownStandard opcode (groups.map Leb128.unsigned))
        groups.flatten

/-- The bytes of an extended instruction behind its size. Bytes that an opcode has no use for may
follow its operands. -/
inductive Payload (order : ByteOrder) : LineInstruction → List UInt8 → Prop
  | empty : Payload order emptyExtended []
  | endSequence (rest : List UInt8) : Payload order endSequence (1 :: rest)
  | setAddress {address : UInt64} {width : Nat} (hpos : 0 < width) (hle : width ≤ 8)
      (hfits : address.toNat < 1 <<< (8 * width)) :
      Payload order (setAddress address) (2 :: order.encode width address.toNat)
  | defineFile {name directory time size : List UInt8} (hname : 0 ∉ name)
      (hdirectory : Leb128.IsGroup directory) (htime : Leb128.IsGroup time)
      (hsize : Leb128.IsGroup size) (rest : List UInt8) :
      Payload order (defineFile ⟨Utf8.lossy name, Leb128.unsigned directory⟩)
        (3 :: (name ++ [0] ++ (directory ++ (time ++ size)) ++ rest))
  | setDiscriminator {group : List UInt8} (h : Leb128.IsGroup group) (rest : List UInt8) :
      Payload order (setDiscriminator (Leb128.unsigned group)) (4 :: (group ++ rest))
  | unknown {opcode : UInt8} (h : opcode ≠ 1 ∧ opcode ≠ 2 ∧ opcode ≠ 3 ∧ opcode ≠ 4)
      (rest : List UInt8) : Payload order (unknownExtended opcode) (opcode :: rest)

/-- The bytes of an instruction under a header. -/
inductive Encodes (header : LineHeader) (order : ByteOrder) : LineInstruction → List UInt8 → Prop
  | special {index : Nat} {opcode : UInt8} (h : opcode.toNat = header.opcodeBase + index) :
      Encodes header order (special index) [opcode]
  | standard {instruction : LineInstruction} {opcode : UInt8} {operands : List UInt8}
      (hlt : opcode.toNat < header.opcodeBase)
      (h : Operands header order opcode.toNat instruction operands) :
      Encodes header order instruction (opcode :: operands)
  | extended {instruction : LineInstruction} {size payload : List UInt8}
      (hsize : Leb128.IsGroup size) (hlength : (Leb128.unsigned size).toNat = payload.length)
      (h : Payload order instruction payload) :
      Encodes header order instruction (0 :: (size ++ payload))

theorem standard_of_lt {opcode : Nat} (h : 12 < opcode) :
    standard header opcode =
      (fun operands => unknownStandard opcode operands.toList) <$>
        times (header.operandCounts[opcode - 1]?.getD 0).toNat uleb128 := by
  unfold standard
  split
  case h_13 => rfl
  all_goals omega

theorem Operands.opcode_ne_zero {opcode : Nat} {instruction : LineInstruction}
    {operands : List UInt8} (h : Operands header order opcode instruction operands) :
    opcode ≠ 0 := by
  cases h <;> omega

theorem Operands.reads_standard {opcode : Nat} {instruction : LineInstruction}
    {operands : List UInt8} (h : Operands header r.order opcode instruction operands) :
    (standard header opcode).Reads r operands instruction := by
  cases h with
  | copy => exact reads_pure _
  | advancePc hgroup => exact (reads_uleb128 hgroup).map
  | advanceLine hgroup => exact (reads_sleb128 hgroup).map
  | setFile hgroup => exact (reads_uleb128 hgroup).map
  | setColumn hgroup => exact (reads_uleb128 hgroup).map
  | negateStatement => exact reads_pure _
  | setBasicBlock => exact reads_pure _
  | constAddPc => exact reads_pure _
  | fixedAdvancePc hcount => exact (reads_encode hcount).map
  | setPrologueEnd => exact reads_pure _
  | setEpilogueBegin => exact reads_pure _
  | setIsa hgroup => exact (reads_uleb128 hgroup).map
  | unknown hopcode hcount hlength hgroups =>
    have hreads := reads_times (r := r) fun group hgroup => reads_uleb128 (hgroups group hgroup)
    rw [standard_of_lt hopcode, hcount, Option.getD_some, ← hlength]
    rw [List.flatMap_id'] at hreads
    exact hreads.map

theorem extendedOfSize_cons (opcode : UInt8) (payload : List UInt8) :
    extendedOfSize (opcode :: payload).length = byte >>= fun
      | 1 => return endSequence
      | 2 => setAddress <$> sized payload.length
      | 3 => do
        let name ← text
        defineFile <$> FileRecord.decodeAfterName name
      | 4 => setDiscriminator <$> uleb128
      | opcode => return unknownExtended opcode :=
  rfl

/-- The decoder of a payload reads a beginning of it. -/
theorem Payload.reads_extendedOfSize {instruction : LineInstruction} {payload : List UInt8}
    (h : Payload r.order instruction payload) :
    ∃ operands rest, payload = operands ++ rest ∧
      (extendedOfSize payload.length).Reads r operands instruction := by
  cases h with
  | empty => exact ⟨[], [], rfl, reads_pure _⟩
  | endSequence rest =>
    refine ⟨[1], rest, rfl, ?_⟩
    rw [extendedOfSize_cons]
    exact (reads_byte 1).bind_nil (reads_pure _)
  | @setAddress address width hpos hle hfits =>
    refine ⟨_, [], (List.append_nil _).symm, ?_⟩
    have hreads := reads_sized (r := r) hpos hle hfits
    rw [UInt64.ofNat_toNat] at hreads
    rw [extendedOfSize_cons, ByteOrder.length_encode]
    exact (reads_byte 2).bind hreads.map
  | @defineFile name directory time size hname hdirectory htime hsize rest =>
    refine ⟨3 :: (name ++ [0] ++ (directory ++ (time ++ size))), rest, rfl, ?_⟩
    rw [extendedOfSize_cons]
    exact (reads_byte 3).bind ((reads_text hname).bind
      (FileRecord.reads_decodeAfterName _ hdirectory htime hsize).map)
  | @setDiscriminator group hgroup rest =>
    refine ⟨4 :: group, rest, rfl, ?_⟩
    rw [extendedOfSize_cons]
    exact (reads_byte 4).bind (reads_uleb128 hgroup).map
  | @unknown opcode hopcode rest =>
    refine ⟨[opcode], rest, rfl, ?_⟩
    rw [extendedOfSize_cons]
    refine (reads_byte opcode).bind_nil ?_
    obtain ⟨hend, haddress, hfile, hdiscriminator⟩ := hopcode
    split
    case h_5 => exact reads_pure _
    all_goals contradiction

theorem Payload.reads_extended {instruction : LineInstruction} {size payload : List UInt8}
    (hsize : Leb128.IsGroup size) (hlength : (Leb128.unsigned size).toNat = payload.length)
    (h : Payload r.order instruction payload) :
    extended.Reads r (size ++ payload) instruction := by
  intro w pos hr hw
  obtain ⟨hgroup, hpayload⟩ := Window.holds_append.1 hw
  -- What the operands leave of the payload is passed over.
  obtain ⟨operands, rest, hsplit, hreads⟩ := h.reads_extendedOfSize
  have hoperands := hreads hr (Window.holds_append.1 (hsplit ▸ hpayload)).1
  rw [extended, bind_of_eq_ok _ (reads_uleb128 hsize hr hgroup), hlength,
    bind_of_eq_ok _ (ensure_of_le hpayload.le_limit), bind_of_eq_ok _ (position_eq w _),
    bind_of_eq_ok _ hoperands, List.length_append, ← Nat.add_assoc]
  rfl

/-- An instruction is decoded from the bytes that encode it. -/
theorem Encodes.reads_decode {instruction : LineInstruction} {bytes : List UInt8}
    (hbase : 0 < header.opcodeBase) (h : Encodes header r.order instruction bytes) :
    (decode header).Reads r bytes instruction := by
  cases h with
  | @special index opcode hopcode =>
    refine (reads_byte opcode).bind_nil ?_
    dsimp only
    rw [if_neg (by omega), if_neg (by omega), hopcode, Nat.add_sub_cancel_left]
    exact reads_pure _
  | @standard instruction opcode operands hlt hoperands =>
    refine (reads_byte opcode).bind ?_
    dsimp only
    rw [if_neg hoperands.opcode_ne_zero, if_pos hlt]
    exact hoperands.reads_standard
  | extended hsize hlength hpayload =>
    exact (reads_byte 0).bind (hpayload.reads_extended hsize hlength)

end LineInstruction

end StackSurvey.Dwarf
