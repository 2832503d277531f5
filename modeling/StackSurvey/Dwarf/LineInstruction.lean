import StackSurvey.Dwarf.Decoder

namespace StackSurvey.Dwarf

open Decoder

/-- A file as line tables of versions 2 to 4 name it. -/
structure FileRecord where
  name : String
  /-- Zero for the directory of the compilation, else one more than an index. -/
  directory : UInt64
deriving DecidableEq, Inhabited

/-- Decodes what follows the name of a file; its time and length are passed over. -/
def FileRecord.decodeAfterName (name : String) : Decoder FileRecord := do
  let directory ← uleb128
  let _ ← uleb128
  let _ ← uleb128
  return { name, directory }

theorem FileRecord.progresses_decodeAfterName (name : String) :
    (decodeAfterName name).Progresses :=
  advances_uleb128.progresses.bind fun _ => advances_uleb128.progresses.bind fun _ =>
    advances_uleb128.progresses.bind fun _ => progresses_pure _

/-- What a line program's header says of its instructions. -/
structure LineHeader where
  minInstructionLength : Nat
  lineBase : Int
  lineRange : Nat
  opcodeBase : Nat
  /-- Number of operands of each standard opcode, from opcode 1 on. -/
  operandCounts : List UInt8
deriving DecidableEq, Inhabited

/-- An instruction with its operands. -/
inductive LineInstruction where
  /-- A special opcode, counted from the first of them. -/
  | special (index : Nat)
  | copy
  | advancePc (count : UInt64)
  | advanceLine (count : Int64)
  | setFile (file : UInt64)
  | setColumn (column : UInt64)
  | negateStatement
  | setBasicBlock
  | constAddPc
  | fixedAdvancePc (count : Nat)
  | setPrologueEnd
  | setEpilogueBegin
  | setIsa (isa : UInt64)
  | unknownStandard (opcode : Nat) (operands : List UInt64)
  | emptyExtended
  | endSequence
  | setAddress (address : UInt64)
  | defineFile (file : FileRecord)
  | setDiscriminator (discriminator : UInt64)
  | unknownExtended (opcode : UInt8)
deriving DecidableEq, Inhabited

namespace LineInstruction

/-- Decodes the operands of a standard opcode. -/
def standard (header : LineHeader) (opcode : Nat) : Decoder LineInstruction :=
  match opcode with
  | 1 => pure copy
  | 2 => advancePc <$> uleb128
  | 3 => advanceLine <$> sleb128
  | 4 => setFile <$> uleb128
  | 5 => setColumn <$> uleb128
  | 6 => pure negateStatement
  | 7 => pure setBasicBlock
  | 8 => pure constAddPc
  | 9 => fixedAdvancePc <$> unsigned 2
  | 10 => pure setPrologueEnd
  | 11 => pure setEpilogueBegin
  | 12 => setIsa <$> uleb128
  | opcode =>
    let count := (header.operandCounts[opcode - 1]?.getD 0).toNat
    (fun operands => unknownStandard opcode operands.toList) <$> times count uleb128

/-- Decodes an extended instruction of `size` bytes. -/
def extendedOfSize (size : Nat) : Decoder LineInstruction := do
  if size = 0 then
    return emptyExtended
  match ← byte with
  | 1 => return endSequence
  | 2 => setAddress <$> sized (size - 1)
  | 3 => do
    let name ← text
    defineFile <$> FileRecord.decodeAfterName name
  | 4 => setDiscriminator <$> uleb128
  | opcode => return unknownExtended opcode

/-- Decodes an extended instruction. It ends where its size says, wherever its operands end. -/
def extended : Decoder LineInstruction := do
  let size := (← uleb128).toNat
  ensure size
  let start ← position
  let instruction ← extendedOfSize size
  seek (start + size)
  return instruction

def decode (header : LineHeader) : Decoder LineInstruction := do
  let opcode := (← byte).toNat
  if opcode = 0 then extended
  else if opcode < header.opcodeBase then standard header opcode
  else return special (opcode - header.opcodeBase)

theorem progresses_standard (header : LineHeader) (opcode : Nat) :
    (standard header opcode).Progresses := by
  unfold standard
  split
  case h_2 | h_4 | h_5 | h_12 => exact advances_uleb128.progresses.map _
  case h_3 => exact advances_sleb128.progresses.map _
  case h_9 => exact (progresses_unsigned 2).map _
  case h_13 => exact (advances_uleb128.progresses.times _).map _
  all_goals exact progresses_pure _

theorem progresses_extended : extended.Progresses := by
  intro w pos instruction next h
  obtain ⟨size, p₁, h₁, h⟩ := bind_eq_ok h
  obtain ⟨_, p₂, h₂, h⟩ := bind_eq_ok h
  obtain ⟨start, p₃, h₃, h⟩ := bind_eq_ok h
  obtain ⟨_, p₄, h₄, h⟩ := bind_eq_ok h
  obtain ⟨_, p₅, h₅, h⟩ := bind_eq_ok h
  cases h
  cases h₅
  cases h₃
  have := advances_uleb128 h₁
  unfold ensure at h₂
  split at h₂ <;> cases h₂
  omega

theorem advances_decode (header : LineHeader) : (decode header).Advances := by
  refine advances_byte.bind fun opcode => ?_
  dsimp only
  split
  · exact progresses_extended
  · split
    · exact progresses_standard header _
    · exact progresses_pure _

end LineInstruction

/-- The registers of the line machine. -/
structure LineRegisters where
  address : UInt64 := 0
  file : UInt64 := 1
  line : UInt64 := 1
  column : UInt64 := 0
deriving DecidableEq, Inhabited

namespace LineRegisters

/-- Moves the address by a number of instructions. -/
def advance (r : LineRegisters) (header : LineHeader) (count : UInt64) : LineRegisters :=
  { r with address := r.address + count * .ofNat header.minInstructionLength }

/-- Moves the line by a signed number, modulo 2^64. -/
def advanceLine (r : LineRegisters) (count : Int64) : LineRegisters :=
  { r with line := r.line + count.toUInt64 }

/-- What a special opcode, counted from the first of them, does to the registers. -/
def special (r : LineRegisters) (header : LineHeader) (index : Nat) : LineRegisters :=
  (r.advance header (.ofNat (index / header.lineRange))).advanceLine
    (.ofInt (header.lineBase + (index % header.lineRange : Nat)))

end LineRegisters

end StackSurvey.Dwarf
