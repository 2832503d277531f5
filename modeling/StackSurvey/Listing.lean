import StackSurvey.Symbol
import StackSurvey.Text.Number

namespace StackSurvey

/-- What a listing is sorted by. Symbols that are equal in it keep their order. -/
inductive SortKey where
  | address
  | name
  /-- The worst case, else the frame size; the largest comes first. -/
  | stack
deriving DecidableEq, Inhabited

/-- What a listing shows. -/
structure ListingOptions where
  sortKey : SortKey := .address
  /-- Symbols that a survey has found nothing about are listed, too. -/
  all : Bool := false
deriving DecidableEq, Inhabited

namespace Listing

/-- The figure that a symbol has in the order by stack. -/
def stackFigure (s : AnnotatedSymbol) : Nat :=
  (s.notes.graphStack <|> s.notes.localStack).getD 0

/-- Whether a symbol may stand before another one. -/
def precedes : SortKey → AnnotatedSymbol → AnnotatedSymbol → Bool
  | .address, a, b => a.symbol.value ≤ b.symbol.value
  | .name, a, b => a.displayName ≤ b.displayName
  | .stack, a, b => stackFigure b ≤ stackFigure a

def select (options : ListingOptions) (symbols : List AnnotatedSymbol) : List AnnotatedSymbol :=
  (symbols.filter fun s => options.all || s.hasMetadata).mergeSort (precedes options.sortKey)

/-- A row of a listing: a column is as wide as its text where that is wider than the column. -/
def columns (address size kind binding sectionName localStack graphStack depth recursion source
    name : String) : String :=
  " ".intercalate
    [Text.alignRight 18 address, Text.alignRight 8 size, Text.alignLeft 7 kind,
      Text.alignLeft 6 binding, Text.alignLeft 10 sectionName, Text.alignRight 6 localStack,
      Text.alignRight 6 graphStack, Text.alignRight 5 depth, Text.alignLeft 7 recursion,
      Text.alignLeft 40 source, name]

def figure : Option Nat → String
  | some n => toString n
  | none => "-"

def header : String :=
  columns "ADDRESS" "SIZE" "TYPE" "BIND" "SECTION" "LOCAL" "GRAPH" "DEPTH" "RECURSE" "SOURCE" "NAME"

def row (s : AnnotatedSymbol) : String :=
  columns (Text.hex s.symbol.value.toNat) (toString s.symbol.size.toNat) s.symbol.kind.name
    s.symbol.binding.name (s.symbol.sectionName.getD "-") (figure s.notes.localStack)
    (figure s.notes.graphStack) (figure s.notes.stackDepth) s.notes.recursion.name
    ((s.notes.source.map SourceLocation.text).getD "-") s.displayName

def ofLines (lines : List String) : String := .join (lines.map (· ++ "\n"))

def text (options : ListingOptions) (symbols : List AnnotatedSymbol) : String :=
  ofLines (header :: (select options symbols).map row)

end Listing

end StackSurvey
