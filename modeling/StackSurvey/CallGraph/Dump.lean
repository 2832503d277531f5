import StackSurvey.CallGraph.Basic
import StackSurvey.Text.Number
import StackSurvey.Text.Split

namespace StackSurvey.CallGraph

open Text

/-- Why a dump cannot be read. -/
inductive DumpFault where
  /-- The number of a symbol has more than 64 bits. -/
  | symbolNumberTooLarge
deriving DecidableEq, Inhabited

/-- The messages for a fault, the context first. -/
def DumpFault.messages : DumpFault → List String
  | symbolNumberTooLarge => ["symbol number", "number too large to fit in target type"]

namespace Dump

/-- The beginning of the line that opens the table. -/
def opening : List Char := "Optimized Symbol table:".toList

/-- The beginning of the line that closes the table. -/
def closing : List Char := "Materializing clones".toList

/-- The beginning of a line of calls. -/
def callsLabel : List Char := "  Calls: ".toList

/-- The beginning of a line with a type. -/
def typeLabel : List Char := "  Type: ".toList

/-- The name and the digits of `name/digits`. -/
def splitSymbol? (token : List Char) : Option (List Char × List Char) :=
  match cutLast? (· == '/') token with
  | some (name, digits) =>
    if name ≠ [] ∧ digits ≠ [] ∧ digits.all Char.isDigit then some (name, digits) else none
  | none => none

/-- The text before and after the first `") "` in a text that is reversed. -/
def cutClose? : List Char → Option (List Char × List Char)
  | ' ' :: ')' :: before => some ([], before)
  | c :: rest => (cutClose? rest).map fun (after, before) => (c :: after, before)
  | [] => none

/-- A function as its line gives it. -/
structure NodeLine where
  mangledName : String
  digits : List Char
  name : String
  address : String
deriving DecidableEq, Inhabited

/-- The function of a line `symbol/number (name) address`. The name may hold parentheses and blanks:
it ends at the last `") "`. -/
def nodeLine? (line : List Char) : Option NodeLine := do
  let (symbol, rest) ← cutFirst? (· == ' ') line
  let (mangledName, digits) ← splitSymbol? symbol
  let rest ← after? ['('] rest
  let (after, name) ← cutClose? rest.reverse
  let address := (trimLeft after.reverse).takeWhile fun c => !isBlank c
  guard (address ≠ [] ∧ name ≠ [])
  return { mangledName := .ofList mangledName, digits, name := .ofList name.reverse,
           address := .ofList address }

/-- The text up to the parenthesis that closes `depth` open ones, and what follows it. -/
def cutNote : Nat → List Char → List Char × List Char
  | _, [] => ([], [])
  | depth, c :: rest =>
    if c = ')' ∧ depth ≤ 1 then ([c], rest)
    else
      let depth := if c = '(' then depth + 1 else if c = ')' then depth - 1 else depth
      let (note, rest) := cutNote depth rest
      (c :: note, rest)

theorem length_cutNote (depth : Nat) (text : List Char) :
    (cutNote depth text).2.length ≤ text.length - 1 := by
  induction text generalizing depth with
  | nil => simp [cutNote]
  | cons c rest ih =>
    unfold cutNote
    split
    · simp
    · have := ih (if c = '(' then depth + 1 else if c = ')' then depth - 1 else depth)
      simp only [List.length_cons]
      omega

/-- The call that a token stands for. -/
def call? (token : List Char) : Option Call := do
  let (name, digits) ← splitSymbol? token
  return { name := .ofList name, symbolNumber := ← digitsToWord? digits }

/-- Marks the last call, which comes first in `calls`, as inlined. -/
def markInlined : List Call → List Call
  | [] => []
  | last :: calls => { last with inlined := true } :: calls

theorem length_trimLeft (text : List Char) : (trimLeft text).length ≤ text.length :=
  List.dropWhile_sublist _ |>.length_le

/-- Adds the calls in a text to those before, which come last first. -/
def callsFrom (before : List Call) (text : List Char) : List Call :=
  match _h : trimLeft text with
  | [] => before
  | c :: rest =>
    if c = '(' then
      let cut := cutNote 0 (c :: rest)
      callsFrom (if cut.1 = "(inlined)".toList then markInlined before else before) cut.2
    else
      let token := c :: rest.takeWhile fun c => !isBlank c
      let before := match call? token with
        | some call => call :: before
        | none => before
      callsFrom before (rest.dropWhile fun c => !isBlank c)
termination_by text.length
decreasing_by
  · have := length_trimLeft text
    have := length_cutNote 0 (c :: rest)
    rw [_h] at *
    simp only [List.length_cons] at *
    omega
  · have := length_trimLeft text
    have := (List.dropWhile_sublist (fun c => !isBlank c) (l := rest)).length_le
    rw [_h] at *
    simp only [List.length_cons] at *
    omega

def calls (text : List Char) : List Call := (callsFrom [] text).reverse

/-- Changes the function that was added last. -/
def changeLast (g : CallGraph) (change : CallNode → CallNode) : CallGraph :=
  g.modify (g.nodes.size - 1) change

def byteSize (text : List Char) : Nat := (String.ofList text).utf8ByteSize

/-- Adds the functions of a table's lines. A line that belongs to no function ends the table if it
has more than two bytes. -/
def addLines (g : CallGraph) : List (List Char) → Except DumpFault CallGraph
  | [] => .ok g
  | line :: lines =>
    if closing.isPrefixOf line then .ok g
    else match after? callsLabel line, after? typeLabel line with
      | some text, _ =>
        addLines (changeLast g fun node => { node with calls := node.calls ++ calls text }) lines
      | none, some text =>
        addLines (changeLast g fun node => { node with nodeType := .ofList (trim text) }) lines
      | none, none =>
        if line.head?.any isBlank then addLines g lines
        else match nodeLine? line with
          | some { mangledName, digits, name, address } =>
            match digitsToWord? digits with
            | some symbolNumber =>
              addLines (g.addNode { mangledName, symbolNumber, name, address }) lines
            | none => .error .symbolNumberTooLarge
          | none => if 2 < byteSize line then .ok g else addLines g lines

end Dump

/-- The call graph that a dump holds, in the table between the opening and the closing line. -/
def parse (text : String) : Except DumpFault CallGraph :=
  Dump.addLines {}
    (((lines text.toList).dropWhile fun line => !(Dump.opening.isPrefixOf line)).drop 1)

theorem exists_of_map_parse {α : Type} {text : String} {f : CallGraph → α} {a : α}
    (h : (parse text).map f = .ok a) : ∃ g, parse text = .ok g ∧ f g = a := by
  cases hparse : parse text with
  | error fault =>
    rw [hparse] at h
    cases h
  | ok g =>
    rw [hparse] at h
    exact ⟨g, rfl, Except.ok.inj h⟩

end StackSurvey.CallGraph
