import Mathlib.Algebra.GroupWithZero.Nat
import StackSurvey.Dwarf.LineTable

namespace StackSurvey.Dwarf

/-- The registers of a line machine that does not wrap around. -/
structure LineMachine where
  address : Int := 0
  file : Int := 1
  line : Int := 1
  column : Int := 0

namespace LineMachine

def advance (m : LineMachine) (header : LineHeader) (count : Nat) : LineMachine :=
  { m with address := m.address + count * header.minInstructionLength }

/-- What an instruction does to the registers. -/
def execute (header : LineHeader) (m : LineMachine) : LineInstruction → LineMachine
  | .special index =>
    { m.advance header (index / header.lineRange) with
      line := m.line + (header.lineBase + (index % header.lineRange : Nat)) }
  | .advancePc count => m.advance header count.toNat
  | .advanceLine count => { m with line := m.line + count.toInt }
  | .setFile file => { m with file := file.toNat }
  | .setColumn column => { m with column := column.toNat }
  | .constAddPc => m.advance header ((255 - header.opcodeBase) / header.lineRange)
  | .fixedAdvancePc count => { m with address := m.address + count }
  | .endSequence => {}
  | .setAddress address => { m with address := address.toNat }
  | _ => m

def row (m : LineMachine) : UInt64 × LineRow :=
  (.ofInt m.address, ⟨.ofInt m.file, .ofInt m.line, .ofInt m.column⟩)

end LineMachine

/-- True of the instructions that add a row. The end of a sequence adds none. -/
def LineInstruction.emits : LineInstruction → Bool
  | special _ | copy => true
  | _ => false

/-- The rows that a program adds, in order. -/
def LineMachine.rows (header : LineHeader) : LineMachine → List LineInstruction →
    List (UInt64 × LineRow)
  | _, [] => []
  | m, instruction :: program =>
    let m' := m.execute header instruction
    if instruction.emits then m'.row :: m'.rows header program else m'.rows header program

/-- The last row of a list at an address. -/
def lastRow? (rows : List (UInt64 × LineRow)) (address : UInt64) : Option LineRow :=
  rows.reverse.findSome? fun row => if row.1 = address then some row.2 else none

theorem toUInt64_ofInt (n : Int) : (Int64.ofInt n).toUInt64 = .ofInt n := by
  apply UInt64.toNat_inj.1
  change (BitVec.ofInt 64 n).toNat = _
  rw [BitVec.toNat_ofInt, UInt64.ofInt, UInt64.toNat_ofNat']
  omega

theorem ofInt_toInt (n : Int64) : UInt64.ofInt n.toInt = n.toUInt64 := by
  rw [← toUInt64_ofInt, Int64.ofInt_toInt]

theorem ofInt_natCast (n : Nat) : UInt64.ofInt n = .ofNat n := by
  apply UInt64.toNat_inj.1
  rw [UInt64.ofInt, UInt64.toNat_ofNat', UInt64.toNat_ofNat']
  omega

theorem ofInt_toNat (n : UInt64) : UInt64.ofInt n.toNat = n := by
  rw [ofInt_natCast, UInt64.ofNat_toNat]

/-- The registers are those of a machine over the integers, modulo 2^64. -/
structure LineRegisters.Represents (r : LineRegisters) (m : LineMachine) : Prop where
  address_eq : r.address = .ofInt m.address
  file_eq : r.file = .ofInt m.file
  line_eq : r.line = .ofInt m.line
  column_eq : r.column = .ofInt m.column

namespace LineRegisters.Represents

variable {r : LineRegisters} {m : LineMachine}

theorem initial : Represents {} {} := ⟨rfl, rfl, rfl, rfl⟩

theorem advance (h : r.Represents m) (header : LineHeader) (count : Nat) :
    (r.advance header (.ofNat count)).Represents (m.advance header count) where
  address_eq := by
    rw [LineRegisters.advance, LineMachine.advance, UInt64.ofInt_add, UInt64.ofInt_mul,
      ofInt_natCast, ofInt_natCast, h.address_eq]
  file_eq := h.file_eq
  line_eq := h.line_eq
  column_eq := h.column_eq

theorem special (h : r.Represents m) (header : LineHeader) (index : Nat) :
    (r.special header index).Represents (m.execute header (.special index)) := by
  let count : Int := header.lineBase + (index % header.lineRange : Nat)
  have hline : r.line + (Int64.ofInt count).toUInt64 = .ofInt (m.line + count) := by
    rw [UInt64.ofInt_add, toUInt64_ofInt, h.line_eq]
  exact { h.advance header (index / header.lineRange) with line_eq := hline }

theorem row_eq (h : r.Represents m) : m.row = (r.address, ⟨r.file, r.line, r.column⟩) := by
  rw [LineMachine.row, h.address_eq, h.file_eq, h.line_eq, h.column_eq]

end LineRegisters.Represents

namespace LineState

variable {s : LineState} {m : LineMachine} (header : LineHeader) (path : FileRecord → String)

/-- A step does to the registers what the machine over the integers does to its own. -/
theorem represents_step (h : s.registers.Represents m) (instruction : LineInstruction) :
    (s.step header path instruction).registers.Represents (m.execute header instruction) := by
  cases instruction with
  | special index => exact h.special header index
  | advancePc count =>
    have hadvance := h.advance header count.toNat
    rw [UInt64.ofNat_toNat] at hadvance
    exact hadvance
  | advanceLine count =>
    have hline : s.registers.line + count.toUInt64 = .ofInt (m.line + count.toInt) := by
      rw [UInt64.ofInt_add, ofInt_toInt, h.line_eq]
    exact { h with line_eq := hline }
  | setFile file => exact { h with file_eq := (ofInt_toNat file).symm }
  | setColumn column => exact { h with column_eq := (ofInt_toNat column).symm }
  | constAddPc => exact h.advance header _
  | fixedAdvancePc count =>
    have haddress : s.registers.address + .ofNat count = .ofInt (m.address + count) := by
      rw [UInt64.ofInt_add, ofInt_natCast, h.address_eq]
    exact { h with address_eq := haddress }
  | endSequence => exact .initial
  | setAddress address => exact { h with address_eq := (ofInt_toNat address).symm }
  | _ => exact h

theorem rows_emit (s : LineState) (h : s.registers.Represents m) :
    s.emit.rows = s.rows.insert m.row.1 m.row.2 := by
  rw [h.row_eq]
  rfl

/-- A step adds the row of the machine if the instruction adds one. -/
theorem rows_step (h : s.registers.Represents m) (instruction : LineInstruction) :
    (s.step header path instruction).rows =
      if instruction.emits then
        s.rows.insert (m.execute header instruction).row.1 (m.execute header instruction).row.2
      else s.rows := by
  cases instruction with
  | special index =>
    exact rows_emit { s with registers := s.registers.special header index }
      (h.special header index)
  | copy => exact s.rows_emit h
  | _ => rfl

/-- A run adds the rows of the machine in order. -/
theorem rows_foldl_step (h : s.registers.Represents m) (program : List LineInstruction) :
    (program.foldl (step header path) s).rows =
      (m.rows header program).foldl (fun rows row => rows.insert row.1 row.2) s.rows := by
  induction program generalizing s m with
  | nil => rfl
  | cons instruction program ih =>
    -- The registers are those of the machine after the instruction too.
    rw [List.foldl_cons, ih (represents_step header path h instruction),
      rows_step header path h instruction, LineMachine.rows]
    cases instruction.emits <;> rfl

end LineState

theorem lastRow?_cons (row : UInt64 × LineRow) (rows : List (UInt64 × LineRow))
    (address : UInt64) :
    lastRow? (row :: rows) address =
      (lastRow? rows address).or (if row.1 = address then some row.2 else none) := by
  rw [lastRow?, List.reverse_cons, List.findSome?_append, List.findSome?_singleton]
  rfl

/-- Among rows that are added one after the other, the last one at an address stays. -/
theorem getElem?_foldl_insert (rows : List (UInt64 × LineRow)) (before : LineRows)
    (address : UInt64) :
    (rows.foldl (fun rows row => rows.insert row.1 row.2) before)[address]? =
      (lastRow? rows address).or before[address]? := by
  induction rows generalizing before with
  | nil => rfl
  | cons row rows ih =>
    rw [List.foldl_cons, ih, lastRow?_cons, Option.or_assoc, Std.TreeMap.getElem?_insert]
    simp only [Std.compare_eq_iff_eq]
    split <;> rfl

end StackSurvey.Dwarf
