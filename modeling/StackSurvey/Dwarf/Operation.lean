import StackSurvey.Dwarf.Decoder

namespace StackSurvey.Dwarf

open Decoder

/-- Operations that replace the top of the stack. -/
inductive UnaryOp where
  | abs
  | neg
  | not
deriving DecidableEq, Inhabited

namespace UnaryOp

/-- The byte that stands for an operation. -/
def opcode : UnaryOp → UInt8
  | abs => 0x19
  | neg => 0x1f
  | not => 0x20

/-- The operation that a byte stands for. -/
def ofOpcode? (opcode : UInt8) : Option UnaryOp :=
  match opcode with
  | 0x19 => some abs
  | 0x1f => some neg
  | 0x20 => some not
  | _ => none

/-- The value that takes the place of `a`. -/
def apply (op : UnaryOp) (a : UInt64) : UInt64 :=
  match op with
  | abs => a.toInt64.abs.toUInt64
  | neg => -a
  | not => ~~~a

end UnaryOp

/-- Operations that replace the two topmost values. -/
inductive BinaryOp where
  | and
  | div
  | minus
  | mod
  | mul
  | or
  | plus
  | shl
  | shr
  | shra
  | xor
  | eq
  | ge
  | gt
  | le
  | lt
  | ne
deriving DecidableEq, Inhabited

namespace BinaryOp

/-- The byte that stands for an operation. -/
def opcode : BinaryOp → UInt8
  | and => 0x1a
  | div => 0x1b
  | minus => 0x1c
  | mod => 0x1d
  | mul => 0x1e
  | or => 0x21
  | plus => 0x22
  | shl => 0x24
  | shr => 0x25
  | shra => 0x26
  | xor => 0x27
  | eq => 0x29
  | ge => 0x2a
  | gt => 0x2b
  | le => 0x2c
  | lt => 0x2d
  | ne => 0x2e

/-- The operation that a byte stands for. -/
def ofOpcode? (opcode : UInt8) : Option BinaryOp :=
  match opcode with
  | 0x1a => some and
  | 0x1b => some div
  | 0x1c => some minus
  | 0x1d => some mod
  | 0x1e => some mul
  | 0x21 => some or
  | 0x22 => some plus
  | 0x24 => some shl
  | 0x25 => some shr
  | 0x26 => some shra
  | 0x27 => some xor
  | 0x29 => some eq
  | 0x2a => some ge
  | 0x2b => some gt
  | 0x2c => some le
  | 0x2d => some lt
  | 0x2e => some ne
  | _ => none

/-- The value that takes the place of `a` with `b` on top of it. Division and comparisons are
signed, the remainder is unsigned, and shifts may be of any amount. -/
def apply (op : BinaryOp) (a b : UInt64) : Except Fault UInt64 :=
  match op with
  | and => .ok (a &&& b)
  | or => .ok (a ||| b)
  | xor => .ok (a ^^^ b)
  | plus => .ok (a + b)
  | minus => .ok (a - b)
  | mul => .ok (a * b)
  | div => if b = 0 then .error .divisionByZero else .ok (a.toInt64 / b.toInt64).toUInt64
  | mod => if b = 0 then .error .divisionByZero else .ok (a % b)
  | shl => .ok (if b < 64 then a <<< b else 0)
  | shr => .ok (if b < 64 then a >>> b else 0)
  | shra =>
    .ok (if b < 64 then (a.toInt64 >>> b.toInt64).toUInt64
      else if a.toInt64 < 0 then -1 else 0)
  | eq => .ok (if a = b then 1 else 0)
  | ne => .ok (if a = b then 0 else 1)
  | ge => .ok (if a.toInt64 ≥ b.toInt64 then 1 else 0)
  | gt => .ok (if a.toInt64 > b.toInt64 then 1 else 0)
  | le => .ok (if a.toInt64 ≤ b.toInt64 then 1 else 0)
  | lt => .ok (if a.toInt64 < b.toInt64 then 1 else 0)

end BinaryOp

/-- An operation with its operands. -/
inductive Operation where
  | push (value : UInt64)
  | dup
  | drop
  | dupSecond
  | pick (index : Nat)
  | swap
  | rot
  | unary (op : UnaryOp)
  | plusConst (addend : UInt64)
  | binary (op : BinaryOp)
  | skip (distance : Int)
  | branch (distance : Int)
  | register (number : UInt64)
  | implicitValue (bytes : List UInt8)
  | stackValue
  | nop
deriving DecidableEq, Inhabited

/-- What an expression says of the place of a value. -/
inductive Location where
  /-- Nothing is said. -/
  | empty
  | address (address : UInt64)
  | register (number : UInt64)
  /-- The value has no place, but is known. -/
  | literal (value : UInt64)
  /-- The bytes of the value are known. -/
  | implicit (bytes : List UInt8)
deriving DecidableEq, Inhabited

/-- What comes after an operation. -/
inductive Outcome where
  | next (stack : List UInt64)
  | jump (distance : Int) (stack : List UInt64)
  | stop (location : Location)
deriving DecidableEq, Inhabited

namespace Operation

/-- A signed number as a word. -/
def wordOfInt (n : Int) : UInt64 := (Int64.ofInt n).toUInt64

/-- Decodes the operands of the operation that a byte stands for. Operations that need memory,
registers or a frame are not supported. -/
def operands (opcode : UInt8) : Decoder Operation :=
  if 0x30 ≤ opcode ∧ opcode < 0x50 then
    pure (push (opcode - 0x30).toUInt64)
  else if 0x50 ≤ opcode ∧ opcode < 0x70 then
    pure (register (opcode - 0x50).toUInt64)
  else
    match opcode with
    | 0x03 => push <$> address
    | 0x08 => (fun n => push (.ofNat n)) <$> unsigned 1
    | 0x09 => (fun n => push (wordOfInt n)) <$> signed 1
    | 0x0a => (fun n => push (.ofNat n)) <$> unsigned 2
    | 0x0b => (fun n => push (wordOfInt n)) <$> signed 2
    | 0x0c => (fun n => push (.ofNat n)) <$> unsigned 4
    | 0x0d => (fun n => push (wordOfInt n)) <$> signed 4
    | 0x0e => push <$> word
    | 0x0f => push <$> word
    | 0x10 => push <$> uleb128
    | 0x11 => (fun n => push n.toUInt64) <$> sleb128
    | 0x12 => pure dup
    | 0x13 => pure drop
    | 0x14 => pure dupSecond
    | 0x15 => pick <$> unsigned 1
    | 0x16 => pure swap
    | 0x17 => pure rot
    | 0x23 => plusConst <$> uleb128
    | 0x28 => branch <$> signed 2
    | 0x2f => skip <$> signed 2
    | 0x90 => register <$> uleb128
    | 0x96 => pure nop
    | 0x9e => do implicitValue <$> bytes (← uleb128).toNat
    | 0x9f => pure stackValue
    | _ =>
      match UnaryOp.ofOpcode? opcode, BinaryOp.ofOpcode? opcode with
      | some op, _ => pure (unary op)
      | none, some op => pure (binary op)
      | none, none => throw (.unsupportedOperation opcode)

def decode : Decoder Operation := do operands (← byte)

/-- Runs an operation on a stack, the top first. A stack that is too short is a fault of the
operation. -/
def run (op : Operation) (stack : List UInt64) : Except Fault Outcome :=
  match op, stack with
  | push value, stack => .ok (.next (value :: stack))
  | dup, a :: stack => .ok (.next (a :: a :: stack))
  | dup, _ => .error (.stackUnderflow 0x12)
  | drop, _ :: stack => .ok (.next stack)
  | drop, _ => .error (.stackUnderflow 0x13)
  | dupSecond, b :: a :: stack => .ok (.next (a :: b :: a :: stack))
  | dupSecond, _ => .error (.stackUnderflow 0x14)
  | pick index, stack =>
    match stack[index]? with
    | some a => .ok (.next (a :: stack))
    | none => .error (.stackUnderflow 0x15)
  | swap, b :: a :: stack => .ok (.next (a :: b :: stack))
  | swap, _ => .error (.stackUnderflow 0x16)
  | rot, c :: b :: a :: stack => .ok (.next (b :: a :: c :: stack))
  | rot, _ => .error (.stackUnderflow 0x17)
  | unary op, a :: stack => .ok (.next (op.apply a :: stack))
  | unary op, _ => .error (.stackUnderflow op.opcode)
  | plusConst addend, a :: stack => .ok (.next ((a + addend) :: stack))
  | plusConst _, _ => .error (.stackUnderflow 0x23)
  | binary op, b :: a :: stack => do return .next ((← op.apply a b) :: stack)
  | binary op, _ => .error (.stackUnderflow op.opcode)
  | skip distance, stack => .ok (.jump distance stack)
  | branch distance, a :: stack => .ok (if a = 0 then .next stack else .jump distance stack)
  | branch _, _ => .error (.stackUnderflow 0x28)
  | register number, _ => .ok (.stop (.register number))
  | implicitValue bytes, _ => .ok (.stop (.implicit bytes))
  | stackValue, a :: _ => .ok (.stop (.literal a))
  | stackValue, _ => .error (.stackUnderflow 0x9f)
  | nop, stack => .ok (.next stack)

end Operation

end StackSurvey.Dwarf
