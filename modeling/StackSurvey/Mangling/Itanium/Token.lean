import StackSurvey.Mangling.Itanium.Node
import StackSurvey.Text.Number
import StackSurvey.Text.Split

namespace StackSurvey.Mangling.Itanium

open Text (after? ofDigits?)

/-- Why a name is refused. -/
inductive Refusal where
  | mismatch
  /-- No other reading of a name that nests too deep is tried. -/
  | tooDeep
deriving DecidableEq, Inhabited

/-- A name, or a part of one that names something. -/
structure Name where
  node : Node
  /-- What a constructor of the named class is called. -/
  leaf : Option Node := none
  /-- The template arguments at the end. -/
  arguments : Option (List Node) := none
  /-- True of constructors, destructors and conversions, whose signatures have no result. -/
  isResultless : Bool := false
  /-- True of members and of templates in a scope. -/
  isNested : Bool := false
deriving Inhabited

/-- What remains to be parsed, and what has been found so far. -/
structure Source where
  rest : List Char
  /-- The parts that references stand for, in order. -/
  candidates : Array Name := #[]
  /-- True inside the type of a conversion. -/
  inConversion : Bool := false

/-- A computation that takes characters from the front of a name. -/
abbrev Parser (α : Type) : Type := StateT Source (Except Refusal) α

namespace Parser

variable {α σ : Type}

def mismatch : Parser α := throw .mismatch

/-- The first parser that finds a reading. -/
def choice : List (Parser α) → Parser α
  | [] => mismatch
  | p :: ps => fun s =>
    match p s with
    | .error .mismatch => choice ps s
    | result => result

/-- A part that may be left out. -/
def optional (p : Parser α) : Parser (Option α) := choice [some <$> p, pure none]

/-- Repeats a step until it answers with nothing; each step but the last must take a character. -/
def iterate (step : σ → Parser (Option σ)) (a : σ) : Parser σ := fun s =>
  match step a s with
  | .error refusal => .error refusal
  | .ok (none, s') => .ok (a, s')
  | .ok (some b, s') =>
    if _h : s'.rest.length < s.rest.length then iterate step b s' else .ok (b, s')
termination_by s => s.rest.length

def many (p : Parser α) : Parser (List α) :=
  Array.toList <$> iterate (fun items => do return (← optional p).map items.push) #[]

/-- As many parts as there are, of which there must be one. -/
def oneOrMore (p : Parser α) : Parser (List α) := do
  let first ← p
  return first :: (← many p)

/-- The next character, which is not taken. -/
def peek : Parser (Option Char) := return (← get).rest.head?

def word (word : String) : Parser Unit := do
  match after? word.toList (← get).rest with
  | some rest => modify fun s => { s with rest }
  | none => mismatch

/-- Takes the characters of `w` if they come next. -/
def eat (w : String) : Parser Bool := return (← optional (word w)).isSome

def take (n : Nat) : Parser (List Char) := do
  let rest := (← get).rest
  if rest.length < n then mismatch
  modify fun s => { s with rest := rest.drop n }
  return rest.take n

/-- The longest run of characters that satisfy `p`. -/
def run (p : Char → Bool) : Parser (List Char) := do
  let rest := (← get).rest
  modify fun s => { s with rest := rest.dropWhile p }
  return rest.takeWhile p

/-- Numbers below this bound are read. -/
def numberBound : Nat := 0x8000000000000000

def natural : Parser Nat := do
  let digits ← run Char.isDigit
  if 1 < digits.length ∧ digits.head? = some '0' then mismatch
  match ofDigits? digits with
  | some n => if n < numberBound then return n else mismatch
  | none => mismatch

/-- A decimal number; `n` stands for a minus sign. -/
def integer : Parser Int := do
  if ← eat "n" then return -(← natural) else return ← natural

/-- A number in base 36 up to an underscore, and one more than it says; zero without digits. -/
def sequenceNumber : Parser Nat := do
  let digits ← run fun c => c.isDigit || c.isUpper
  word "_"
  if digits.isEmpty then return 0
  if 1 < digits.length ∧ digits.head? = some '0' then mismatch
  return digits.foldl (fun n c =>
    36 * n + (if c.isDigit then c.toNat - '0'.toNat else c.toNat - 'A'.toNat + 10)) 0 + 1

/-- A number up to an underscore that counts things of one kind: the first has none, and the second
has zero. -/
def ordinal : Parser Nat := do
  let number ← optional natural
  word "_"
  return match number with
    | some n => n + 2
    | none => 1

/-- Remembers a part that references may stand for. -/
def remember (name : Name) : Parser Name := do
  modify fun s => { s with candidates := s.candidates.push name }
  return name

def rememberType (type : Node) : Parser Node := do return (← remember { node := type }).node

def isIdentifierChar (c : Char) : Bool := c.isAlphanum || c == '_' || c == '$' || c == '.'

/-- An identifier as it is read; unnamed namespaces have identifiers too. -/
def identifierText (chars : List Char) : String :=
  match after? "_GLOBAL_".toList chars with
  | some (c :: 'N' :: _) =>
    if c == '.' || c == '_' || c == '$' then "(anonymous namespace)" else .ofList chars
  | _ => .ofList chars

def identifier : Parser String := do
  let chars ← take (← natural)
  if chars.isEmpty || !chars.all isIdentifierChar then mismatch
  return identifierText chars

/-- The symbols of operators with one operand, by the letters that stand for them. -/
def unaryOperators : List (String × String) :=
  [("ps", "+"), ("ng", "-"), ("ad", "&"), ("de", "*"), ("co", "~"), ("nt", "!"), ("pp", "++"),
    ("mm", "--")]

/-- The symbols of operators between two operands. -/
def binaryOperators : List (String × String) :=
  [("pl", "+"), ("mi", "-"), ("ml", "*"), ("dv", "/"), ("rm", "%"), ("an", "&"), ("or", "|"),
    ("eo", "^"), ("aS", "="), ("pL", "+="), ("mI", "-="), ("mL", "*="), ("dV", "/="), ("rM", "%="),
    ("aN", "&="), ("oR", "|="), ("eO", "^="), ("ls", "<<"), ("rs", ">>"), ("lS", "<<="),
    ("rS", ">>="), ("eq", "=="), ("ne", "!="), ("lt", "<"), ("gt", ">"), ("le", "<="),
    ("ge", ">="), ("aa", "&&"), ("oo", "||"), ("cm", ","), ("pm", "->*"), ("ix", "[]"),
    ("ss", "<=>")]

/-- The symbols of operators whose operands are read in a way of their own. -/
def specialOperators : List (String × String) :=
  [("nw", " new"), ("na", " new[]"), ("dl", " delete"), ("da", " delete[]"), ("pt", "->"),
    ("cl", "()"), ("qu", "?:")]

/-- The symbols of all operators that have one. -/
def operators : List (String × String) := unaryOperators ++ binaryOperators ++ specialOperators

/-- Two letters of a table, read as the text that they stand for. -/
def operator (table : List (String × String)) : Parser String := do
  match table.lookup (.ofList (← take 2)) with
  | some text => return text
  | none => mismatch

/-- The builtin types, by the letters that stand for them. -/
def builtins : List (String × String) :=
  [("v", "void"), ("w", "wchar_t"), ("b", "bool"), ("c", "char"), ("a", "signed char"),
    ("h", "unsigned char"), ("s", "short"), ("t", "unsigned short"), ("i", "int"),
    ("j", "unsigned int"), ("l", "long"), ("m", "unsigned long"), ("x", "long long"),
    ("y", "unsigned long long"), ("n", "__int128"), ("o", "unsigned __int128"), ("f", "float"),
    ("d", "double"), ("e", "long double"), ("g", "__float128"), ("z", "..."),
    ("Dd", "decimal64"), ("De", "decimal128"), ("Df", "decimal32"), ("Dh", "half"),
    ("Di", "char32_t"), ("Ds", "char16_t"), ("Du", "char8_t"), ("Da", "auto"),
    ("Dc", "decltype(auto)"), ("Dn", "std::nullptr_t")]

/-- A builtin type that is told by the number of its bits. -/
def sizedBuiltin : Parser Node :=
  choice
    [do
      word "DF"
      let size ← natural
      let ending ← choice [do word "_"; return "", do word "x"; return "x"]
      return .text s!"_Float{size}{ending}",
    do
      word "DB"
      let size ← natural
      word "_"
      return .text s!"signed _BitInt({size})",
    do
      word "DU"
      let size ← natural
      word "_"
      return .text s!"unsigned _BitInt({size})"]

def builtin : Parser Node :=
  choice (builtins.map (fun (letters, name) => do
    word letters
    return .builtin name) ++ [sizedBuiltin, do
      word "u"
      return .text (← identifier)])

/-- Parts of the standard library with a letter of their own, and what their constructors are
called. -/
def wellKnown : List (String × String × Option String) :=
  [("St", "std", none), ("Sa", "std::allocator", some "allocator"),
    ("Sb", "std::basic_string", some "basic_string"), ("Ss", "std::string", some "string"),
    ("Si", "std::basic_istream<char, std::char_traits<char> >", some "basic_istream"),
    ("So", "std::ostream", some "ostream"),
    ("Sd", "std::basic_iostream<char, std::char_traits<char> >", some "basic_iostream")]

/-- A reference to an earlier part, or to a part of the standard library. -/
def reference : Parser Name :=
  choice (wellKnown.map (fun (letters, name, leaf) => do
    word letters
    return { node := .text name, leaf := leaf.map .text }) ++ [do
      word "S"
      let number ← sequenceNumber
      match (← get).candidates[number]? with
      | some name => return name
      | none => mismatch])

def templateParameter : Parser Node := do
  word "T"
  let number ← optional natural
  word "_"
  return .parameter (match number with
    | some n => n + 1
    | none => 0)

/-- The qualifiers of a type, of which there may be none. -/
def qualifiers : Parser Qualifiers := do
  let isRestrict ← eat "r"
  let isVolatile ← eat "V"
  let isConst ← eat "K"
  return { isRestrict, isVolatile, isConst }

/-- The reference sign of a member function, if there is one. -/
def referenceSign : Parser String :=
  choice [do word "R"; return "&", do word "O"; return "&&", pure ""]

/-- What tells apart local things of one name; it is not read. -/
def discriminator : Parser Unit := do
  word "_"
  if ← eat "_" then
    if (← natural) < 10 then mismatch
    word "_"
  else
    unless ((← take 1).all Char.isDigit) do mismatch

/-- Adjustments of the receiver of a virtual call. -/
def callOffset : Parser String :=
  choice
    [do
      word "h"
      let offset ← integer
      word "_"
      return s!"\x7boffset({offset})\x7d",
    do
      word "v"
      let offset ← integer
      word "_"
      let index ← integer
      word "_"
      return s!"\x7bvirtual offset({offset}, {index})\x7d"]

end Parser

end StackSurvey.Mangling.Itanium
