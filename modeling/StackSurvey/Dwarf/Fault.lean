import StackSurvey.Dwarf.Form
import StackSurvey.Text.Number

namespace StackSurvey.Dwarf

open Text (hex hexOfWidth)

/-- The sections that hold debug data. -/
inductive DebugSection where
  | info
  | abbreviations
  | loc
  | line
  | lineStr
  | str
  | ranges
deriving DecidableEq, Inhabited

/-- The name of a section in an object file. -/
def DebugSection.name : DebugSection → String
  | info => ".debug_info"
  | abbreviations => ".debug_abbrev"
  | loc => ".debug_loc"
  | line => ".debug_line"
  | lineStr => ".debug_line_str"
  | str => ".debug_str"
  | ranges => ".debug_ranges"

/-- What a value was asked to be. -/
inductive Reading where
  | address
  | unsignedConstant
  | signedConstant
  | sectionOffset
  | flag
  | block
  | expression
  | inlineOrOffsetString
  /-- The path of a directory or file in a line table. -/
  | string
  /-- The directory index of a file in a line table. -/
  | constant
deriving DecidableEq, Inhabited

def Reading.name : Reading → String
  | address => "address"
  | unsignedConstant => "unsigned constant"
  | signedConstant => "signed constant"
  | sectionOffset => "section offset"
  | flag => "flag"
  | block => "block"
  | expression => "expression"
  | inlineOrOffsetString => "inline or offset string"
  | string => "string"
  | constant => "constant"

/-- Why debug data cannot be decoded. -/
inductive Fault where
  | truncated (offset needed available : Nat)
  | reservedLength (length : Nat)
  | unknownForm (code : UInt64)
  | unknownAbbreviation (code : UInt64)
  | unsupportedVersion (version : Nat)
  | unsupportedAddressSize (size : Nat)
  | formMismatch (form : Form) (expected : Reading)
  | missingAttribute (name : UInt64)
  | unsupportedReference (form : Form)
  | unsupportedOperation (opcode : UInt8)
  | stackUnderflow (opcode : UInt8)
  | divisionByZero
  | invalidBranch (target : Int)
  | operationLimit (limit : Nat)
  | unterminatedString (offset : Nat)
  | missingSection (name : DebugSection)
  | invalidOffset (name : DebugSection) (offset : Nat)
  /-- An integer of no bytes, or of more than eight. -/
  | integerWidth
  /-- The form says that the abbreviation holds the value, and it holds none. -/
  | noStoredConstant
  /-- Special opcodes are divided by the line range. -/
  | zeroLineRange
deriving DecidableEq, Inhabited

def Fault.message : Fault → String
  | truncated offset needed available =>
    s!"truncated section: need {needed} bytes at offset {hex offset}, {available} available"
  | reservedLength length => s!"reserved initial length value {hexOfWidth 8 length}"
  | unknownForm code => s!"unknown attribute form {hex code.toNat}"
  | unknownAbbreviation code => s!"unknown abbreviation code {code.toNat}"
  | unsupportedVersion version => s!"unsupported DWARF version {version}"
  | unsupportedAddressSize size => s!"unsupported address size {size}"
  | formMismatch form expected => s!"form {form.name} cannot be read as {expected.name}"
  | missingAttribute name => s!"attribute {hex name.toNat} not present"
  | unsupportedReference form => s!"unsupported reference form {form.name}"
  | unsupportedOperation opcode => s!"unsupported expression operation {hexOfWidth 2 opcode.toNat}"
  | stackUnderflow opcode => s!"expression stack underflow at operation {hexOfWidth 2 opcode.toNat}"
  | divisionByZero => "division by zero in expression"
  | invalidBranch target => s!"branch to {target} leaves the expression"
  | operationLimit limit => s!"expression exceeded {limit} operations"
  | unterminatedString offset => s!"unterminated string at offset {hex offset}"
  | missingSection name => s!"section {name.name} is not present"
  | invalidOffset name offset => s!"offset {hex offset} is outside {name.name}"
  | integerWidth => "malformed data: integer width must be 1 to 8 bytes"
  | noStoredConstant => "malformed data: implicit_const without a stored value"
  | zeroLineRange => "malformed data: line_range of zero"

end StackSurvey.Dwarf
