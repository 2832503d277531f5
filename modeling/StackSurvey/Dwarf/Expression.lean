import StackSurvey.Dwarf.Operation

namespace StackSurvey.Dwarf

open Decoder

/-- A location expression and the encoding of its operands. -/
structure Expression where
  code : List UInt8
  format : Format := .bits32
  order : ByteOrder
  addressSize : Nat := 8
deriving DecidableEq, Inhabited

namespace Expression

/-- An expression may run this many operations; a backward branch might never end. -/
def operationLimit : Nat := 100000

/-- Zeros that lie below the arguments. -/
def seedDepth : Nat := 8

/-- The window that an expression is decoded from. -/
def window (e : Expression) : Window :=
  let data := ByteArray.mk e.code.toArray
  { data
    region :=
      { start := 0, stop := data.size, format := e.format, order := e.order,
        addressSize := e.addressSize } }

/-- Moves by `distance`, to an operation of the expression or to its end. -/
def jump (distance : Int) : Decoder Unit := do
  let r ← region
  let target : Int := (← position) + distance
  if target < r.start ∨ r.stop < target then
    throw (.invalidBranch target)
  seek target.toNat

/-- Does what comes after an operation: ends, or goes on with the stack that is left. -/
def proceed (goOn : List UInt64 → Decoder Location) : Except Fault Outcome → Decoder Location
  | .ok (.next stack) => goOn stack
  | .ok (.jump distance stack) => do
    jump distance
    goOn stack
  | .ok (.stop location) => return location
  | .error fault => throw fault

/-- Runs at most `budget` operations on a stack, the top first. -/
def execute : Nat → List UInt64 → Decoder Location
  | budget, stack => do
    if (← read).limit ≤ (← position) then
      match stack with
      | top :: _ => return .address top
      | [] => throw (.stackUnderflow 0)
    match budget with
    | 0 => throw (.operationLimit operationLimit)
    | budget + 1 =>
      let operation ← Operation.decode
      proceed (execute budget) (operation.run stack)

/-- Runs an expression with `args` on the stack, the first of them on top. -/
def evaluate (e : Expression) (args : List UInt64) : Except Fault Location :=
  if e.code = [] then
    .ok .empty
  else
    match execute operationLimit (args ++ List.replicate seedDepth 0) e.window 0 with
    | .ok location _ => .ok location
    | .error fault _ => .error fault

end Expression

end StackSurvey.Dwarf
