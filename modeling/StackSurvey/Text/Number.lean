namespace StackSurvey.Text

/-- `text` with blanks before it up to `width` characters. -/
def alignRight (width : Nat) (text : String) : String :=
  .ofList (List.replicate (width - text.length) ' ') ++ text

/-- `text` with blanks after it up to `width` characters. -/
def alignLeft (width : Nat) (text : String) : String :=
  text ++ .ofList (List.replicate (width - text.length) ' ')

/-- Lower-case hexadecimal after `0x`, with zeros before it up to `digits` digits. -/
def hexOfWidth (digits n : Nat) : String :=
  let shown := Nat.toDigits 16 n
  "0x" ++ .ofList (List.replicate (digits - shown.length) '0' ++ shown)

def hex (n : Nat) : String := hexOfWidth 1 n

/-- The number that a run of decimal digits writes. -/
def ofDigits? (digits : List Char) : Option Nat :=
  if digits ≠ [] ∧ digits.all Char.isDigit then
    some (digits.foldl (fun n c => 10 * n + (c.toNat - '0'.toNat)) 0)
  else
    none

/-- Numbers below this bound are stored. -/
def wordBound : Nat := 0x10000000000000000

/-- The number below 2^64 that decimal digits write. -/
def digitsToWord? (digits : List Char) : Option Nat :=
  (ofDigits? digits).filter (· < wordBound)

/-- The number below 2^64 that decimal digits write, after a plus sign if there is one. -/
def word? (text : List Char) : Option Nat :=
  match text with
  | '+' :: digits => digitsToWord? digits
  | digits => digitsToWord? digits

end StackSurvey.Text
