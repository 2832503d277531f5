import StackSurvey.Dwarf.DebugUnit
import StackSurvey.Dwarf.Expression
import StackSurvey.Dwarf.FormExtent

namespace StackSurvey.Dwarf

open Decoder

/-- The attributes that a survey reads. -/
inductive KnownAttribute where
  | sibling
  | location
  | name
  | stmtList
  | lowPc
  | highPc
  | compDir
  | declColumn
  | declFile
  | declLine
  | ranges
deriving DecidableEq

def KnownAttribute.code : KnownAttribute → UInt64
  | sibling => 0x01
  | location => 0x02
  | name => 0x03
  | stmtList => 0x10
  | lowPc => 0x11
  | highPc => 0x12
  | compDir => 0x1b
  | declColumn => 0x39
  | declFile => 0x3a
  | declLine => 0x3b
  | ranges => 0x55

/-- An attribute of an entry: its form, and where its value is. -/
structure Attribute where
  name : UInt64
  form : Form
  offset : Nat
  implicitConst : Option Int64
deriving DecidableEq, Inhabited

namespace Attribute

/-- The attribute whose value begins at an offset, with indirections followed. -/
def ofSpec (u : DebugUnit) (spec : AttributeSpec) (offset : Nat) : Except Fault Attribute :=
  u.decodeAt offset do
    let form ← spec.form.follow
    return { name := spec.name, form, offset := ← position, implicitConst := spec.implicitConst }

/-- The fault of a reading that does not accept the form. -/
def mismatch (a : Attribute) (expected : Reading) : Fault := .formMismatch a.form expected

def stored (a : Attribute) : Except Fault Int64 :=
  match a.implicitConst with
  | some n => .ok n
  | none => .error .noStoredConstant

def address (u : DebugUnit) (a : Attribute) : Except Fault UInt64 :=
  match a.form with
  | .addr => u.decodeAt a.offset Decoder.address
  | _ => .error (a.mismatch .address)

def unsigned (u : DebugUnit) (a : Attribute) : Except Fault UInt64 :=
  match a.form with
  | .data1 => u.decodeAt a.offset (sized 1)
  | .data2 => u.decodeAt a.offset (sized 2)
  | .data4 => u.decodeAt a.offset (sized 4)
  | .data8 => u.decodeAt a.offset (sized 8)
  | .udata => u.decodeAt a.offset uleb128
  | .implicitConst => Int64.toUInt64 <$> a.stored
  | _ => .error (a.mismatch .unsignedConstant)

def signed (u : DebugUnit) (a : Attribute) : Except Fault Int64 :=
  match a.form with
  | .data1 => u.decodeAt a.offset (Int64.ofInt <$> Decoder.signed 1)
  | .data2 => u.decodeAt a.offset (Int64.ofInt <$> Decoder.signed 2)
  | .data4 => u.decodeAt a.offset (Int64.ofInt <$> Decoder.signed 4)
  | .data8 => u.decodeAt a.offset (Int64.ofInt <$> Decoder.signed 8)
  | .sdata => u.decodeAt a.offset sleb128
  | .implicitConst => a.stored
  | _ => .error (a.mismatch .signedConstant)

def sectionOffset (u : DebugUnit) (a : Attribute) : Except Fault UInt64 :=
  match a.form with
  | .data4 => u.decodeAt a.offset (sized 4)
  | .data8 => u.decodeAt a.offset (sized 8)
  | .secOffset => u.decodeAt a.offset Decoder.offset
  | _ => .error (a.mismatch .sectionOffset)

def flag (u : DebugUnit) (a : Attribute) : Except Fault Bool :=
  match a.form with
  | .flag => u.decodeAt a.offset ((· != 0) <$> byte)
  | .flagPresent => .ok true
  | _ => .error (a.mismatch .flag)

/-- The bytes of a block, or the fault of another reading of it. -/
def blockAs (u : DebugUnit) (a : Attribute) (expected : Reading) : Except Fault (List UInt8) :=
  match a.form with
  | .block1 => u.decodeAt a.offset do bytes (← Decoder.unsigned 1)
  | .block2 => u.decodeAt a.offset do bytes (← Decoder.unsigned 2)
  | .block4 => u.decodeAt a.offset do bytes (← Decoder.unsigned 4)
  | .block | .exprloc => u.decodeAt a.offset do bytes (← uleb128).toNat
  | _ => .error (a.mismatch expected)

def block (u : DebugUnit) (a : Attribute) : Except Fault (List UInt8) := a.blockAs u .block

def expression (u : DebugUnit) (a : Attribute) : Except Fault Expression := do
  let code ← a.blockAs u .expression
  let r := u.region
  return { code, format := r.format, order := r.order, addressSize := r.addressSize }

def string (u : DebugUnit) (a : Attribute) : Except Fault String :=
  match a.form with
  | .string => u.decodeAt a.offset text
  | .strp => do u.sections.textAt .str (← u.decodeAt a.offset Decoder.offset) u.region.order
  | .lineStrp => do
    u.sections.textAt .lineStr (← u.decodeAt a.offset Decoder.offset) u.region.order
  | _ => .error (a.mismatch .inlineOrOffsetString)

/-- The distance of a referenced entry of the same unit from the start of the unit. -/
def distance (u : DebugUnit) (a : Attribute) : Except Fault UInt64 :=
  match a.form with
  | .ref1 => u.decodeAt a.offset (sized 1)
  | .ref2 => u.decodeAt a.offset (sized 2)
  | .ref4 => u.decodeAt a.offset (sized 4)
  | .ref8 => u.decodeAt a.offset (sized 8)
  | .refUdata => u.decodeAt a.offset uleb128
  | form => .error (.unsupportedReference form)

/-- The offset of a referenced entry of the same unit. -/
def localReference (u : DebugUnit) (a : Attribute) : Except Fault Nat := do
  let target := (UInt64.ofNat u.offset + (← a.distance u)).toNat
  if u.containsOffset target then
    return target
  else
    throw (.invalidOffset .info target)

end Attribute

end StackSurvey.Dwarf
