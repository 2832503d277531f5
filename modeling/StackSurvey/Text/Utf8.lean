namespace StackSurvey.Utf8

/-- Where the reader stands inside a character: how many bytes are owed, the range of the next
one, and the bits read so far. -/
structure Pending where
  owed : Nat
  low : UInt8
  high : UInt8
  bits : Nat

/-- The character that stands for bytes that are no text. -/
def replacement : Char := '\uFFFD'

/-- What a byte between two characters begins: a whole character, or a pending one. -/
def lead (b : UInt8) : Char ⊕ Pending :=
  if b < 0x80 then .inl (.ofNat b.toNat)
  else if b < 0xC2 then .inl replacement
  else if b < 0xE0 then .inr ⟨1, 0x80, 0xBF, b.toNat % 32⟩
  else if b = 0xE0 then .inr ⟨2, 0xA0, 0xBF, 0⟩
  else if b = 0xED then .inr ⟨2, 0x80, 0x9F, 13⟩
  else if b < 0xF0 then .inr ⟨2, 0x80, 0xBF, b.toNat % 16⟩
  else if b = 0xF0 then .inr ⟨3, 0x90, 0xBF, 0⟩
  else if b < 0xF4 then .inr ⟨3, 0x80, 0xBF, b.toNat % 8⟩
  else if b = 0xF4 then .inr ⟨3, 0x80, 0x8F, 4⟩
  else .inl replacement

/-- The characters of `bytes`, read from inside the pending character if there is one. -/
def chars : Option Pending → List UInt8 → List Char
  | none, [] => []
  | some _, [] => [replacement]
  | none, b :: bytes =>
    match lead b with
    | .inl c => c :: chars none bytes
    | .inr p => chars (some p) bytes
  | some p, b :: bytes =>
    if p.low ≤ b ∧ b ≤ p.high then
      let bits := p.bits * 64 + b.toNat % 64
      if p.owed ≤ 1 then .ofNat bits :: chars none bytes
      else chars (some ⟨p.owed - 1, 0x80, 0xBF, bits⟩) bytes
    else
      replacement ::
        match lead b with
        | .inl c => c :: chars none bytes
        | .inr p => chars (some p) bytes

def lossy (bytes : List UInt8) : String := .ofList (chars none bytes)

end StackSurvey.Utf8
