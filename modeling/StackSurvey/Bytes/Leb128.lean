namespace StackSurvey.Leb128

/-- True on the last byte of a group. -/
def isLast (b : UInt8) : Bool := b < 0x80

/-- The bits that bytes of a group have given so far, the least significant first, and the place of
those of the next byte. -/
structure Bits where
  word : UInt64 := 0
  shift : UInt32 := 0
deriving DecidableEq

namespace Bits

/-- Adds the seven bits of a byte. Those that a word has no room for are dropped. -/
def add (bits : Bits) (b : UInt8) : Bits where
  word :=
    if bits.shift < 64 then
      bits.word ||| (b &&& 0x7f).toUInt64 <<< bits.shift.toUInt64
    else
      bits.word
  shift := bits.shift + 7

def ofBytes (bytes : List UInt8) : Bits := bytes.foldl add {}

end Bits

def unsigned (bytes : List UInt8) : UInt64 := (Bits.ofBytes bytes).word

/-- True of a last byte that begins a negative number. -/
def isNegative (b : UInt8) : Bool := b &&& 0x40 != 0

/-- The signed reading of a group: the sign fills what the bytes leave of the word. -/
def signed (bytes : List UInt8) : Int64 :=
  let bits := Bits.ofBytes bytes
  if bits.shift < 64 ∧ bytes.getLast?.any isNegative then
    (bits.word ||| (-1) <<< bits.shift.toUInt64).toInt64
  else
    bits.word.toInt64

/-- The shortest group that reads as `n`. -/
def encode (n : Nat) : List UInt8 :=
  if n < 128 then [.ofNat n] else .ofNat (n % 128 + 128) :: encode (n / 128)
termination_by n

/-- The shortest group that reads as the signed number `n`. -/
def encodeSigned (n : Int) : List UInt8 :=
  if -64 ≤ n ∧ n < 64 then
    [.ofNat (n % 128).toNat]
  else
    .ofNat ((n % 128).toNat + 128) :: encodeSigned (n / 128)
termination_by n.natAbs
decreasing_by omega

end StackSurvey.Leb128
