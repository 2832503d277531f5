namespace StackSurvey.Text

/-- The runs of characters between those that satisfy `p`. -/
def splitAt (p : Char → Bool) : List Char → List (List Char)
  | [] => [[]]
  | c :: cs =>
    if p c then [] :: splitAt p cs
    else match splitAt p cs with
      | [] => [[c]]
      | word :: words => (c :: word) :: words

/-- Characters that separate words, in any script. -/
def isBlank (c : Char) : Bool :=
  ('\t' ≤ c && c ≤ '\r') || c == ' ' || c == '\u0085' || c == '\u00A0' || c == '\u1680'
    || ('\u2000' ≤ c && c ≤ '\u200A') || c == '\u2028' || c == '\u2029' || c == '\u202F'
    || c == '\u205F' || c == '\u3000'

def trimLeft (text : List Char) : List Char := text.dropWhile isBlank

def trimRight (text : List Char) : List Char := (text.reverse.dropWhile isBlank).reverse

def trim (text : List Char) : List Char := trimRight (trimLeft text)

/-- The lines of a text, without line ends; carriage returns before a line end are part of it. -/
def lines (text : List Char) : List (List Char) :=
  let pieces := splitAt (· == '\n') text
  let pieces := if pieces.getLast? = some [] then pieces.dropLast else pieces
  pieces.map fun line => (line.reverse.dropWhile (· == '\r')).reverse

/-- What follows `start` in `text`, if `text` begins with it. -/
def after? : List Char → List Char → Option (List Char)
  | [], text => some text
  | _ :: _, [] => none
  | a :: start, c :: text => if a = c then after? start text else none

/-- The text before and after the first place where `p` holds; that character is in neither. -/
def cutFirst? (p : Char → Bool) : List Char → Option (List Char × List Char)
  | [] => none
  | c :: cs => if p c then some ([], cs) else (cutFirst? p cs).map fun (a, b) => (c :: a, b)

/-- The text before and after the last place where `p` holds; that character is in neither. -/
def cutLast? (p : Char → Bool) (text : List Char) : Option (List Char × List Char) :=
  (cutFirst? p text.reverse).map fun (a, b) => (b.reverse, a.reverse)

/-- The text before the last place where `word` stands. -/
def beforeLast? (word : List Char) : List Char → Option (List Char)
  | [] => none
  | c :: cs =>
    match beforeLast? word cs with
    | some before => some (c :: before)
    | none => if word.isPrefixOf (c :: cs) then some [] else none

end StackSurvey.Text
