import StackSurvey.Mangling.V0.Reader

namespace StackSurvey.Mangling.V0

/-- What is printed, and whether anything is. -/
structure Context where
  symbol : Array Char
  isVisible : Bool

/-- A print in progress. -/
structure Progress where
  /-- The next position; none once a fault has been met. -/
  position : Option Nat
  output : String := ""
  /-- Number of lifetimes that the binders around this part bind. -/
  lifetimes : Nat := 0

/-- A computation that decodes and prints. -/
abbrev Printer (α : Type) : Type := ReaderT Context (StateM Progress) α

namespace Printer

variable {α : Type}

def put (text : String) : Printer Unit := do
  if (← read).isVisible then
    modify fun s => { s with output := s.output ++ text }

/-- Runs a part to its end or to the fault that cuts it short. -/
def attempt (part : OptionT Printer Unit) : Printer Unit := discard part.run

/-- Cuts a part short. -/
def refuse (fault : Fault) : OptionT Printer α := do
  put fault.message
  modify fun s => { s with position := none }
  failure

/-- Reads a token; a question mark stands for it after an earlier fault. -/
def parse (token : Reader α) : OptionT Printer α := do
  match (← get).position with
  | none =>
    put "?"
    failure
  | some position =>
    match token (← read).symbol position with
    | .ok (a, position) =>
      modify fun s => { s with position := some position }
      return a
    | .error fault => refuse fault

/-- Passes over a character if it comes next. -/
def eat (c : Char) : Printer Bool := do
  match (← get).position with
  | none => return false
  | some position =>
    if (← read).symbol[position]? = some c then
      modify fun s => { s with position := some (position + 1) }
      return true
    else
      return false

/-- Decodes without printing. -/
def hidden (p : Printer α) : Printer α := withReader ({ · with isVisible := false }) p

/-- Decodes items up to an `E` and prints a separator between them. -/
def separated (separator : String) (item : Printer Unit) : Printer Nat := do
  go ((← read).symbol.size + 1) 0
where
  /-- Goes on after `count` items; each item takes a character or meets a fault. -/
  go : Nat → Nat → Printer Nat
    | 0, count => return count
    | n + 1, count => do
      if (← get).position.isNone || (← eat 'E') then
        return count
      if 0 < count then put separator
      item
      go n (count + 1)

/-- Goes to the position that a reference points to, and comes back. -/
def follow (part : Printer α) : OptionT Printer (Option α) := do
  let target ← parse Reader.target
  if (← read).isVisible then
    let position := (← get).position
    modify fun s => { s with position := some target }
    let a ← part
    modify fun s => { s with position }
    return some a
  else
    return none

/-- Prints the lifetime that the innermost binder but `index - 1` binds; zero is the erased one. -/
def lifetime (index : Nat) : Printer Unit := attempt do
  if (← read).isVisible then
    put "'"
    let bound := (← get).lifetimes
    if index = 0 then put "_"
    else if bound < index then refuse .invalid
    else if bound - index < 26 then
      put (.singleton (.ofNat ('a'.toNat + (bound - index))))
    else
      put s!"_{bound - index}"

/-- Binds and prints lifetimes. -/
def bindLifetimes : Nat → String → Printer Unit
  | 0, _ => return
  | n + 1, separator => do
    put separator
    modify fun s => { s with lifetimes := s.lifetimes + 1 }
    lifetime 1
    bindLifetimes n ", "

/-- Decodes a part that may be inside a binder of lifetimes. -/
def binder (part : Printer Unit) : Printer Unit := attempt do
  let count ← parse (Reader.optionalInteger62 'G')
  if (← read).isVisible then
    let bound := (← get).lifetimes
    if 0 < count then
      bindLifetimes count "for<"
      put "> "
    part
    modify fun s => { s with lifetimes := bound }
  else
    part

def basicType? : Char → Option String
  | 'b' => some "bool"
  | 'c' => some "char"
  | 'e' => some "str"
  | 'u' => some "()"
  | 'a' => some "i8"
  | 's' => some "i16"
  | 'l' => some "i32"
  | 'x' => some "i64"
  | 'n' => some "i128"
  | 'i' => some "isize"
  | 'h' => some "u8"
  | 't' => some "u16"
  | 'm' => some "u32"
  | 'y' => some "u64"
  | 'o' => some "u128"
  | 'j' => some "usize"
  | 'f' => some "f32"
  | 'd' => some "f64"
  | 'z' => some "!"
  | 'p' => some "_"
  | 'v' => some "..."
  | _ => none

def escaped (quote c : Char) : String :=
  match c with
  | '\t' => "\\t"
  | '\r' => "\\r"
  | '\n' => "\\n"
  | '\\' => "\\\\"
  | '\x00' => "\\0"
  | _ =>
    if c = quote then "\\" ++ .singleton c
    else if c.toNat < 0x20 ∨ (0x7f ≤ c.toNat ∧ c.toNat < 0xa0) then
      "\\u\x7b" ++ .ofList (Nat.toDigits 16 c.toNat) ++ "\x7d"
    else .singleton c

def quoted (quote : Char) (chars : List Char) : Printer Unit :=
  put (.singleton quote ++ String.join (chars.map (escaped quote)) ++ .singleton quote)

/-- The bytes that pairs of hexadecimal digits write. -/
def bytes? : List Char → Option (List UInt8)
  | [] => some []
  | [_] => none
  | a :: b :: rest => do
    let byte ← ofHexDigits? [a, b]
    return .ofNat byte :: (← bytes? rest)

def stringConstant : OptionT Printer Unit := do
  let digits ← parse Reader.hexDigits
  match (bytes? digits).bind fun bytes => String.fromUTF8? ⟨bytes.toArray⟩ with
  | some text => quoted '"' text.toList
  | none => refuse .invalid

/-- Prints an unsigned constant; one that does not fit a word is printed as it stands. -/
def unsignedConstant : OptionT Printer Unit := do
  let digits ← parse Reader.hexDigits
  match ofHexDigits? digits with
  | some n => put (toString n)
  | none => put ("0x" ++ .ofList digits)

/-- Prints an element of a path after the path before it. -/
def element (space : Option Char) : OptionT Printer Unit := do
  if (← get).position.isNone then put "::"
  let number ← parse Reader.disambiguator
  let name ← parse Identifier.reader
  match space with
  | some c =>
    put "::\x7b"
    put (match c with
      | 'C' => "closure"
      | 'S' => "shim"
      | _ => .singleton c)
    unless name.isEmpty do put (":" ++ name.text)
    put s!"#{number}\x7d"
  | none =>
    unless name.isEmpty do put ("::" ++ name.text)

/-- The calling convention of a function; hyphens are written as underscores in its name. -/
def convention? : OptionT Printer (Option (List Char)) := do
  if ← eat 'K' then
    if ← eat 'C' then return some ['C']
    let name ← parse Identifier.reader
    if name.ascii.isEmpty || !name.insertions.isEmpty then refuse .invalid
    return some (name.ascii.map fun c => if c = '_' then '-' else c)
  else
    return none

def genericArgument (type constant : Printer Unit) : Printer Unit := do
  if ← eat 'L' then
    attempt do lifetime (← parse Reader.integer62)
  else if ← eat 'K' then
    constant
  else
    type

/-- Prints the types that a trait's associated types are bound to. -/
def associatedTypes (type : Printer Unit) : Nat → Bool → OptionT Printer Bool
  | 0, isOpen => return isOpen
  | n + 1, isOpen => do
    if ← eat 'p' then
      put (if isOpen then ", " else "<")
      let name ← parse Identifier.reader
      put (name.text ++ " = ")
      type
      associatedTypes type n true
    else
      return isOpen

mutual

def path (depth : Nat) (inValue : Bool) : Printer Unit := attempt do
  match depth with
  | 0 => parse (throw .tooDeep)
  | depth + 1 =>
    match ← parse Reader.next with
    | 'C' =>
      let _ ← parse Reader.disambiguator
      put (← parse Identifier.reader).text
    | 'N' =>
      let space ← parse Reader.namespace?
      path depth inValue
      element space
    | 'M' =>
      let _ ← parse Reader.disambiguator
      hidden (path depth false)
      put "<"
      type depth
      put ">"
    | 'X' =>
      let _ ← parse Reader.disambiguator
      hidden (path depth false)
      put "<"
      type depth
      put " as "
      path depth false
      put ">"
    | 'Y' =>
      put "<"
      type depth
      put " as "
      path depth false
      put ">"
    | 'I' =>
      path depth inValue
      put (if inValue then "::<" else "<")
      discard <| separated ", " (genericArgument (type depth) (constant depth false))
      put ">"
    | 'B' =>
      match depth with
      | 0 =>
        let _ ← parse Reader.target
        refuse .tooDeep
      | depth + 1 => discard <| follow (path depth inValue)
    | _ => refuse .invalid
termination_by (depth, 0)

def type (depth : Nat) : Printer Unit := attempt do
  let tag ← parse Reader.next
  match basicType? tag, depth with
  | some name, _ => put name
  | none, 0 => parse (throw .tooDeep)
  | none, depth + 1 =>
    match tag with
    | 'R' =>
      put "&"
      reference
      type depth
    | 'Q' =>
      put "&"
      reference
      put "mut "
      type depth
    | 'P' =>
      put "*const "
      type depth
    | 'O' =>
      put "*mut "
      type depth
    | 'A' =>
      put "["
      type depth
      put "; "
      constant depth true
      put "]"
    | 'S' =>
      put "["
      type depth
      put "]"
    | 'T' =>
      put "("
      let count ← separated ", " (type depth)
      put (if count = 1 then ",)" else ")")
    | 'F' =>
      binder <| attempt do
        let isUnsafe ← eat 'U'
        let convention ← convention?
        if isUnsafe then put "unsafe "
        if let some name := convention then put ("extern \"" ++ .ofList name ++ "\" ")
        put "fn("
        discard <| separated ", " (type depth)
        put ")"
        unless ← eat 'u' do
          put " -> "
          type depth
    | 'D' =>
      put "dyn "
      binder <| discard <| separated " + " (boundTrait depth)
      unless ← eat 'L' do refuse .invalid
      let index ← parse Reader.integer62
      if 0 < index then
        put " + "
        lifetime index
    | 'B' =>
      match depth with
      | 0 =>
        let _ ← parse Reader.target
        refuse .tooDeep
      | depth + 1 => discard <| follow (type depth)
    | _ =>
      modify fun s => { s with position := s.position.map (· - 1) }
      path depth false
termination_by (depth, 0)
where
  /-- Prints the lifetime of a reference, if it has one. -/
  reference : OptionT Printer Unit := do
    if ← eat 'L' then
      let index ← parse Reader.integer62
      if 0 < index then
        lifetime index
        put " "

/-- Prints a constant; outside expressions, all but literals stand in braces. -/
def constant (depth : Nat) (inValue : Bool) : Printer Unit := attempt do
  let tag ← parse Reader.next
  match depth with
  | 0 => parse (throw .tooDeep)
  | depth + 1 =>
    let opening := if inValue then "" else "\x7b"
    let closing := if inValue then "" else "\x7d"
    match tag with
    | 'p' => put "_"
    | 'h' | 't' | 'm' | 'y' | 'o' | 'j' => attempt unsignedConstant
    | 'a' | 's' | 'l' | 'x' | 'n' | 'i' =>
      if ← eat 'n' then put "-"
      attempt unsignedConstant
    | 'b' =>
      match ofHexDigits? (← parse Reader.hexDigits) with
      | some 0 => put "false"
      | some 1 => put "true"
      | _ => refuse .invalid
    | 'c' =>
      match ofHexDigits? (← parse Reader.hexDigits) with
      | some code => if code.isValidChar then quoted '\'' [.ofNat code] else refuse .invalid
      | none => refuse .invalid
    | 'e' =>
      put (opening ++ "*")
      attempt stringConstant
      put closing
    | 'R' =>
      if ← eat 'e' then
        attempt stringConstant
      else
        put (opening ++ "&")
        constant depth true
        put closing
    | 'Q' =>
      put (opening ++ "&mut ")
      constant depth true
      put closing
    | 'A' =>
      put (opening ++ "[")
      discard <| separated ", " (constant depth true)
      put ("]" ++ closing)
    | 'T' =>
      put (opening ++ "(")
      let count ← separated ", " (constant depth true)
      put ((if count = 1 then ",)" else ")") ++ closing)
    | 'V' =>
      put opening
      path depth true
      match ← parse Reader.next with
      | 'U' => pure ()
      | 'T' =>
        put "("
        discard <| separated ", " (constant depth true)
        put ")"
      | 'S' =>
        put " \x7b "
        discard <| separated ", " <| attempt do
          let _ ← parse Reader.disambiguator
          let name ← parse Identifier.reader
          put (name.text ++ ": ")
          constant depth true
        put " \x7d"
      | _ => refuse .invalid
      put closing
    | 'B' =>
      match depth with
      | 0 =>
        let _ ← parse Reader.target
        refuse .tooDeep
      | depth + 1 => discard <| follow (constant depth inValue)
    | _ => refuse .invalid
termination_by (depth, 0)

/-- Prints a path and leaves its list of generic arguments open, if it has one. -/
def openPath (depth : Nat) : Printer Bool := do
  if ← eat 'B' then
    let isOpen ← (do
      match depth with
      | 0 =>
        let _ ← parse Reader.target
        refuse .tooDeep
      | depth + 1 => follow (openPath depth) : OptionT Printer (Option Bool)).run
    return isOpen.join.getD false
  else if ← eat 'I' then
    path depth false
    put "<"
    discard <| separated ", " (genericArgument (type depth) (constant depth false))
    return true
  else
    path depth false
    return false
termination_by (depth, 1)

/-- Prints a trait with the types that its associated types are bound to. -/
def boundTrait (depth : Nat) : Printer Unit := attempt do
  let isOpen ← openPath depth
  if ← associatedTypes (type depth) (← read).symbol.size isOpen then put ">"
termination_by (depth, 2)

end

end Printer

/-- The deepest nesting of paths, types, constants and references. -/
def depthLimit : Nat := 500

/-- The position after a path, if there is one. -/
def afterPath? (symbol : Array Char) (position : Nat) : Option Nat :=
  (Printer.path depthLimit false ⟨symbol, false⟩ { position := some position }).2.position

/-- The path that a name stands for. A second path, which is not printed, may follow it. -/
def demangle? (name : String) : Option String := do
  let chars ← Text.after? "_R".toList name.toList
  let symbol := chars.toArray
  let isPath (position : Nat) : Bool := symbol[position]?.any Char.isUpper
  if !isPath 0 || chars.any (0x80 ≤ ·.toNat) then none
  let stop ← afterPath? symbol 0
  let stop ← if isPath stop then afterPath? symbol stop else some stop
  if stop < symbol.size then none
  return (Printer.path depthLimit true ⟨symbol, true⟩ { position := some 0 }).2.output

end StackSurvey.Mangling.V0
