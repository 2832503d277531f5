import StackSurvey.Mangling.Punycode
import StackSurvey.Text.Number
import StackSurvey.Text.Split

namespace StackSurvey.Mangling.V0

open Text (cutLast? ofDigits? wordBound)

/-- Why a name cannot be read. -/
inductive Fault where
  | invalid
  | tooDeep
deriving DecidableEq, Inhabited

/-- The words that stand for a part that cannot be read. -/
def Fault.message : Fault → String
  | invalid => "\x7binvalid syntax\x7d"
  | tooDeep => "\x7brecursion limit reached\x7d"

/-- A computation that reads a name from a position on. -/
abbrev Reader (α : Type) : Type := ReaderT (Array Char) (StateT Nat (Except Fault)) α

namespace Reader

variable {α : Type}

/-- Passes over a character if it comes next. -/
def eat (c : Char) : Reader Bool := do
  if (← read)[← get]? = some c then
    modify (· + 1)
    return true
  else
    return false

def next : Reader Char := do
  match (← read)[← get]? with
  | some c =>
    modify (· + 1)
    return c
  | none => throw .invalid

/-- The longest run of characters that satisfy `p`. -/
def run (p : Char → Bool) : Reader (List Char) := do
  let chars := ((← read).toList.drop (← get)).takeWhile p
  modify (· + chars.length)
  return chars

def take (n : Nat) : Reader (List Char) := do
  let start ← get
  if (← read).size < start + n then throw .invalid
  set (start + n)
  return ((← read).toList.drop start).take n

/-- Passes over a character that must come next. -/
def expect (c : Char) : Reader Unit := do
  unless ← eat c do throw .invalid

/-- The value of a digit in base 62. -/
def digit62 (c : Char) : Nat :=
  if c.isDigit then c.toNat - '0'.toNat
  else if c.isLower then c.toNat - 'a'.toNat + 10
  else c.toNat - 'A'.toNat + 36

/-- A number below the bound of a word. -/
def bounded (n : Nat) : Reader Nat := if n < wordBound then return n else throw .invalid

/-- A number in base 62; no digits mean zero, and digits one more than they say. -/
def integer62 : Reader Nat := do
  let digits ← run Char.isAlphanum
  expect '_'
  if digits.isEmpty then return 0
  bounded (digits.foldl (fun n c => 62 * n + digit62 c) 0 + 1)

/-- One more than the number after a tag; zero without the tag. -/
def optionalInteger62 (tag : Char) : Reader Nat := do
  if ← eat tag then bounded ((← integer62) + 1) else return 0

/-- What tells apart things of one name. -/
def disambiguator : Reader Nat := optionalInteger62 's'

/-- A namespace: a letter if it is a special one. -/
def namespace? : Reader (Option Char) := do
  let c ← next
  if c.isUpper then return some c
  else if c.isLower then return none
  else throw .invalid

/-- A decimal number without leading zeros. -/
def decimal : Reader Nat := do
  if ← eat '0' then return 0
  match ofDigits? (← run Char.isDigit) with
  | some n => return n
  | none => throw .invalid

/-- Hexadecimal digits up to an underscore. -/
def hexDigits : Reader (List Char) := do
  let digits ← run fun c => c.isDigit || ('a' ≤ c && c ≤ 'f')
  expect '_'
  return digits

/-- The position that a reference points to, which lies before the reference's tag. -/
def target : Reader Nat := do
  let tag := (← get) - 1
  let position ← integer62
  if tag ≤ position then throw .invalid
  return position

end Reader

/-- An identifier: ASCII characters, and digits that insert others among them. -/
structure Identifier where
  ascii : List Char
  insertions : List Char := []
deriving DecidableEq, Inhabited

namespace Identifier

def isEmpty (i : Identifier) : Bool := i.ascii.isEmpty && i.insertions.isEmpty

/-- An identifier as it is read. -/
def text (i : Identifier) : String :=
  if i.insertions.isEmpty then
    .ofList i.ascii
  else
    match Punycode.decode i.ascii i.insertions with
    | some decoded => .ofList decoded
    | none =>
      let ascii := if i.ascii.isEmpty then "" else .ofList i.ascii ++ "-"
      "punycode\x7b" ++ ascii ++ .ofList i.insertions ++ "\x7d"

/-- Reads an identifier: its length, an underscore that may be left out, and its characters. -/
def reader : Reader Identifier := do
  let isEncoded ← Reader.eat 'u'
  let length ← Reader.decimal
  let _ ← Reader.eat '_'
  let chars ← Reader.take length
  if isEncoded then
    let (ascii, insertions) := (cutLast? (· == '_') chars).getD ([], chars)
    if insertions.isEmpty then throw .invalid
    return { ascii, insertions }
  else
    return { ascii := chars }

end Identifier

/-- The value of hexadecimal digits, if it fits a word. -/
def ofHexDigits? (digits : List Char) : Option Nat :=
  let digits := digits.dropWhile (· == '0')
  if 16 < digits.length then none
  else some (digits.foldl (fun n c =>
    16 * n + (if c.isDigit then c.toNat - '0'.toNat else c.toNat - 'a'.toNat + 10)) 0)

end StackSurvey.Mangling.V0
