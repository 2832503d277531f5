namespace StackSurvey.Dwarf

/-- What a value of some form can be read as. -/
inductive FormClass where
  | address
  | string
  | constant
  | reference
  | block
  | expression
  | flag
  | sectionOffset
  /-- Known only once the form that the value names has been read. -/
  | unresolved
deriving DecidableEq, Inhabited

namespace FormClass

def name : FormClass → String
  | address => "Address"
  | string => "String"
  | constant => "Constant"
  | reference => "Reference"
  | block => "Block"
  | expression => "Expression"
  | flag => "Flag"
  | sectionOffset => "SectionOffset"
  | unresolved => "Unresolved"

end FormClass

/-- The encoding of an attribute value. -/
inductive Form where
  | addr
  | block1
  | block2
  | block4
  | block
  | data1
  | data2
  | data4
  | data8
  | data16
  | sdata
  | udata
  | implicitConst
  | string
  | strp
  | lineStrp
  | strpSup
  | strx
  | strx1
  | strx2
  | strx3
  | strx4
  | addrx
  | addrx1
  | addrx2
  | addrx3
  | addrx4
  | flag
  | flagPresent
  | ref1
  | ref2
  | ref4
  | ref8
  | refUdata
  | refAddr
  | refSig8
  | refSup4
  | refSup8
  | secOffset
  | exprloc
  | loclistx
  | rnglistx
  | indirect
  | unknown (code : UInt64)
deriving DecidableEq, Inhabited

namespace Form

/-- The form that a code stands for. -/
def ofCode (code : UInt64) : Form :=
  match code with
  | 0x01 => addr
  | 0x03 => block2
  | 0x04 => block4
  | 0x05 => data2
  | 0x06 => data4
  | 0x07 => data8
  | 0x08 => string
  | 0x09 => block
  | 0x0a => block1
  | 0x0b => data1
  | 0x0c => flag
  | 0x0d => sdata
  | 0x0e => strp
  | 0x0f => udata
  | 0x10 => refAddr
  | 0x11 => ref1
  | 0x12 => ref2
  | 0x13 => ref4
  | 0x14 => ref8
  | 0x15 => refUdata
  | 0x16 => indirect
  | 0x17 => secOffset
  | 0x18 => exprloc
  | 0x19 => flagPresent
  | 0x1a => strx
  | 0x1b => addrx
  | 0x1c => refSup4
  | 0x1d => strpSup
  | 0x1e => data16
  | 0x1f => lineStrp
  | 0x20 => refSig8
  | 0x21 => implicitConst
  | 0x22 => loclistx
  | 0x23 => rnglistx
  | 0x24 => refSup8
  | 0x25 => strx1
  | 0x26 => strx2
  | 0x27 => strx3
  | 0x28 => strx4
  | 0x29 => addrx1
  | 0x2a => addrx2
  | 0x2b => addrx3
  | 0x2c => addrx4
  | other => unknown other

def name : Form → String
  | addr => "Addr"
  | block1 => "Block1"
  | block2 => "Block2"
  | block4 => "Block4"
  | block => "Block"
  | data1 => "Data1"
  | data2 => "Data2"
  | data4 => "Data4"
  | data8 => "Data8"
  | data16 => "Data16"
  | sdata => "Sdata"
  | udata => "Udata"
  | implicitConst => "ImplicitConst"
  | string => "String"
  | strp => "Strp"
  | lineStrp => "LineStrp"
  | strpSup => "StrpSup"
  | strx => "Strx"
  | strx1 => "Strx1"
  | strx2 => "Strx2"
  | strx3 => "Strx3"
  | strx4 => "Strx4"
  | addrx => "Addrx"
  | addrx1 => "Addrx1"
  | addrx2 => "Addrx2"
  | addrx3 => "Addrx3"
  | addrx4 => "Addrx4"
  | flag => "Flag"
  | flagPresent => "FlagPresent"
  | ref1 => "Ref1"
  | ref2 => "Ref2"
  | ref4 => "Ref4"
  | ref8 => "Ref8"
  | refUdata => "RefUdata"
  | refAddr => "RefAddr"
  | refSig8 => "RefSig8"
  | refSup4 => "RefSup4"
  | refSup8 => "RefSup8"
  | secOffset => "SecOffset"
  | exprloc => "Exprloc"
  | loclistx => "Loclistx"
  | rnglistx => "Rnglistx"
  | indirect => "Indirect"
  | unknown code => "Unknown(" ++ toString code.toNat ++ ")"

/-- The class of the values that a form encodes. -/
def formClass : Form → FormClass
  | addr | addrx | addrx1 | addrx2 | addrx3 | addrx4 => .address
  | string | strp | lineStrp | strpSup | strx | strx1 | strx2 | strx3 | strx4 => .string
  | data1 | data2 | data4 | data8 | data16 | sdata | udata | implicitConst => .constant
  | ref1 | ref2 | ref4 | ref8 | refUdata | refAddr | refSig8 | refSup4 | refSup8 => .reference
  | block1 | block2 | block4 | block => .block
  | exprloc => .expression
  | flag | flagPresent => .flag
  | secOffset | loclistx | rnglistx => .sectionOffset
  | indirect | unknown _ => .unresolved

end Form

end StackSurvey.Dwarf
