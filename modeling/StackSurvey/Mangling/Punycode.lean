namespace StackSurvey.Mangling.Punycode

/-- The value of a digit, of which there are 36. -/
def digit? (c : Char) : Option Nat :=
  if 'a' ≤ c ∧ c ≤ 'z' then some (c.toNat - 'a'.toNat)
  else if c.isDigit then some (c.toNat - '0'.toNat + 26)
  else none

/-- Digits below the threshold end a number; `k` counts 36 for each digit of it. -/
def threshold (bias k : Nat) : Nat := min (max (k - bias) 1) 26

/-- Divides by 35 until at most 455 remains, and counts 36 for each division. -/
def scaleDown (delta k : Nat) : Nat × Nat :=
  if 455 < delta then scaleDown (delta / 35) (k + 36) else (delta, k)
termination_by delta
decreasing_by exact Nat.div_lt_self (by omega) (by omega)

/-- The bias for the number after `delta`, which led to a text of some length. -/
def nextBias (delta length : Nat) (isFirst : Bool) : Nat :=
  let delta := if isFirst then delta / 700 else delta / 2
  let (delta, k) := scaleDown (delta + delta / length) 0
  k + 36 * delta / (delta + 38)

/-- The number at the head of a list of digits, and the digits after it. -/
def number? (bias : Nat) (k weight : Nat) : List Char → Option (Nat × List Char)
  | [] => none
  | c :: rest => do
    let d ← digit? c
    let t := threshold bias k
    if d < t then
      return (d * weight, rest)
    else
      let (n, rest) ← number? bias (k + 36) (weight * (36 - t)) rest
      return (d * weight + n, rest)

theorem length_of_number? {bias k weight n : Nat} {digits rest : List Char}
    (h : number? bias k weight digits = some (n, rest)) : rest.length < digits.length := by
  induction digits generalizing k weight n with
  | nil => simp [number?] at h
  | cons c digits ih =>
    simp only [number?, Option.bind_eq_bind, Option.bind_eq_some_iff] at h
    obtain ⟨d, -, h⟩ := h
    split at h
    · cases h
      simp
    · simp only [Option.bind_eq_some_iff] at h
      obtain ⟨⟨m, after⟩, hm, h⟩ := h
      cases h
      simpa using Nat.lt_succ_of_lt (ih hm)

/-- The most characters that a name may have. -/
def lengthLimit : Nat := 128

/-- Inserts a character for each number that `digits` hold. A number says how far to go on from the
place after the last insertion; each time round the text, the character is one greater. -/
def insertAll (bias code place : Nat) (text digits : List Char) (isFirst : Bool) :
    Option (List Char) :=
  match h : number? bias 36 1 digits with
  | none => none
  | some (delta, rest) =>
    let length := text.length + 1
    let code := code + (place + delta) / length
    let place := (place + delta) % length
    if lengthLimit < length ∨ ¬ code.isValidChar then
      none
    else
      let text := text.insertIdx place (.ofNat code)
      if rest.isEmpty then
        some text
      else
        insertAll (nextBias delta length isFirst) code (place + 1) text rest false
termination_by digits.length
decreasing_by exact length_of_number? h

/-- The text that ASCII characters and digits stand for. -/
def decode (ascii digits : List Char) : Option (List Char) :=
  if lengthLimit < ascii.length then none else insertAll 72 0x80 0 ascii digits true

end StackSurvey.Mangling.Punycode
