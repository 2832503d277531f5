import StackSurvey.Text.Number
import StackSurvey.Text.Split

namespace StackSurvey.Mangling.Hashed

open Text (after? cutFirst? ofDigits?)

/-- The elements of a path up to its end, and what follows it. -/
def elements? : List Char → Option (List (List Char) × List Char)
  | [] => none
  | 'E' :: rest => some ([], rest)
  | c :: rest => do
    let n ← ofDigits? (c :: rest.takeWhile Char.isDigit)
    let text := rest.dropWhile Char.isDigit
    if n < text.length then
      let (elements, after) ← elements? (text.drop n)
      return (text.take n :: elements, after)
    else
      none
termination_by text => text.length
decreasing_by
  have := (List.dropWhile_sublist Char.isDigit (l := rest)).length_le
  simp only [List.length_drop, List.length_cons]
  omega

/-- True of elements that are a hash: `h` and hexadecimal digits. -/
def isHash : List Char → Bool
  | 'h' :: digits => digits.all fun c =>
    c.isDigit || ('a' ≤ c && c ≤ 'f') || ('A' ≤ c && c ≤ 'F')
  | _ => false

def ofHexDigits? (digits : List Char) : Option Nat :=
  if digits.isEmpty then none
  else digits.foldlM (fun n c =>
    if c.isDigit then some (16 * n + (c.toNat - '0'.toNat))
    else if 'a' ≤ c ∧ c ≤ 'f' then some (16 * n + (c.toNat - 'a'.toNat + 10))
    else none) 0

/-- True of control characters. -/
def isControl (c : Char) : Bool := c.toNat < 0x20 || (0x7f ≤ c.toNat && c.toNat < 0xa0)

/-- The character that an escape stands for. -/
def escape? : List Char → Option Char
  | ['S', 'P'] => some '@'
  | ['B', 'P'] => some '*'
  | ['R', 'F'] => some '&'
  | ['L', 'T'] => some '<'
  | ['G', 'T'] => some '>'
  | ['L', 'P'] => some '('
  | ['R', 'P'] => some ')'
  | ['C'] => some ','
  | 'u' :: digits => do
    let code ← ofHexDigits? digits
    if code.isValidChar ∧ ¬ isControl (.ofNat code) then some (.ofNat code) else none
  | _ => none

theorem length_of_cutFirst? {p : Char → Bool} {text before after : List Char}
    (h : cutFirst? p text = some (before, after)) : after.length < text.length := by
  induction text generalizing before with
  | nil => simp [cutFirst?] at h
  | cons c text ih =>
    simp only [cutFirst?] at h
    split at h
    · cases h
      simp
    · obtain ⟨⟨a, b⟩, hab, h⟩ := Option.map_eq_some_iff.1 h
      cases h
      simpa using Nat.lt_succ_of_lt (ih hab)

/-- Resolves the escapes of an element: names between dollar signs, and two dots for a path
separator. Nothing is resolved after an unknown escape. -/
def unescape : List Char → List Char
  | [] => []
  | '.' :: '.' :: rest => ':' :: ':' :: unescape rest
  | '$' :: rest =>
    match _h : cutFirst? (· == '$') rest with
    | none => '$' :: rest
    | some (name, after) =>
      match escape? name with
      | some c => c :: unescape after
      | none => '$' :: rest
  | c :: rest => c :: unescape rest
termination_by text => text.length
decreasing_by
  · simp only [List.length_cons]
    omega
  · have := length_of_cutFirst? _h
    simp only [List.length_cons]
    omega
  · simp

/-- An element as it is read; an underscore stands before an escape that begins it. -/
def elementText : List Char → List Char
  | '_' :: '$' :: rest => unescape ('$' :: rest)
  | text => unescape text

/-- A path as it is read, without its hash. -/
def pathText (elements : List (List Char)) : List Char :=
  let shown := match elements.getLast? with
    | some last => if isHash last then elements.dropLast else elements
    | none => []
  "::".toList.intercalate (shown.map elementText)

/-- A name without the ending that names a module. -/
def dropModule (name : List Char) : List Char :=
  go name
where
  /-- Looks for the first ending from here on; only that one counts. -/
  go : List Char → List Char
    | [] => []
    | c :: rest =>
      match after? ".llvm.".toList (c :: rest) with
      | some ending =>
        if ending.all fun c => c.isDigit || ('A' ≤ c && c ≤ 'F') || c == '@' then []
        else c :: rest
      | none => c :: go rest

/-- True of the text that may follow a name. -/
def isSuffix : List Char → Bool
  | [] => true
  | '.' :: rest => rest.all fun c => '!' ≤ c && c ≤ '~'
  | _ => false

/-- The path that a name of the shape `_ZN…E` stands for, and what follows it. -/
def demangle? (name : String) : Option String := do
  let name := dropModule name.toList
  let path ← (after? "_ZN".toList name) <|> (after? "__ZN".toList name)
  let (elements, suffix) ← elements? path
  if path.all (·.toNat < 0x80) && isSuffix suffix then
    return .ofList (pathText elements ++ suffix)
  else
    none

end StackSurvey.Mangling.Hashed
