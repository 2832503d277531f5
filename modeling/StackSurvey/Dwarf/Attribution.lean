import StackSurvey.Dwarf.DebugInfo
import StackSurvey.Dwarf.SourceIndex
import StackSurvey.SymbolTable

namespace StackSurvey.Dwarf

/-- Source locations by address. -/
abbrev SourceRows : Type := Std.TreeMap UInt64 SourceLocation

/-- A function may begin this far past the row that its source is taken from. -/
def maxRowDistance : UInt64 := 5

/-- A source location; column zero stands for none. -/
def sourceLocation (path : String) (line column : UInt64) : SourceLocation :=
  { path, line, column := if 0 < column then some column else none }

namespace SourceRows

/-- Adds the rows of a line table whose file is known; they replace rows with their address. -/
def addTable (rows : SourceRows) (table : LineTable) : SourceRows :=
  table.rows.foldl
    (fun rows address row =>
      match table.fileName? row.file with
      | some path => rows.insert address (sourceLocation path row.line row.column)
      | none => rows)
    rows

/-- The rows of line tables, later ones first. -/
def ofTables (tables : List LineTable) : SourceRows := tables.foldl addTable ∅

/-- The row for a symbol: a function takes the closest row at or before it if that is close
enough, anything else the row exactly at it. -/
def find? (rows : SourceRows) (kind : SymbolKind) (address : UInt64) :
    Option (UInt64 × SourceLocation) :=
  if kind = .func then
    (rows.getEntryLE? address).filter fun row => address - row.1 ≤ maxRowDistance
  else
    rows[address]?.map fun location => (address, location)

end SourceRows

/-- Where the source of a symbol comes from. -/
inductive Attribution where
  /-- The symbol is none that has a source. -/
  | ineligible
  | fromEntry (source : SourceLocation) (address : UInt64)
  | fromRow (source : SourceLocation) (address : UInt64)
  | unmatched
deriving DecidableEq, Inhabited

namespace Attribution

def apply (notes : Annotation) : Attribution → Annotation
  | fromEntry source address =>
    { notes with source := some source, fromEntries := true, debugAddress := some address }
  | fromRow source address =>
    { notes with source := some source, fromEntries := false, debugAddress := some address }
  | ineligible | unmatched => notes

end Attribution

/-- What symbols are attributed from. -/
structure SourceLookup where
  index : SourceIndex
  rows : SourceRows

namespace SourceLookup

/-- The attribution of a symbol. Symbols without a value, outside the sections of the file, and of
sections themselves have none. -/
def attribute? (lookup : SourceLookup) (t : SymbolTable) (s : Symbol) : Attribution :=
  if 0 < s.value ∧ t.sectionIsKnown s.sectionIndex ∧ s.kind ≠ .section then
    match lookup.index.find? s.value with
    | some span =>
      .fromEntry (sourceLocation span.path span.entry.line span.entry.column) span.low
    | none =>
      match lookup.rows.find? s.kind s.value with
      | some (address, source) => .fromRow source address
      | none => .unmatched
  else
    .ineligible

end SourceLookup

/-- How many symbols were attributed from where. -/
structure MatchCounts where
  fromEntries : Nat := 0
  fromRows : Nat := 0
  unmatched : Nat := 0
deriving DecidableEq, Inhabited

def MatchCounts.add (counts : MatchCounts) : Attribution → MatchCounts
  | .ineligible => counts
  | .fromEntry .. => { counts with fromEntries := counts.fromEntries + 1 }
  | .fromRow .. => { counts with fromRows := counts.fromRows + 1 }
  | .unmatched => { counts with unmatched := counts.unmatched + 1 }

def SourceLookup.attributeAll (lookup : SourceLookup) (t : SymbolTable) :
    SymbolTable × MatchCounts :=
  let counts := t.symbols.foldl
    (fun counts s => counts.add (lookup.attribute? t s.symbol)) ({} : MatchCounts)
  (t.annotateAll fun s => (lookup.attribute? t s.symbol).apply s.notes, counts)

def Session.sourceLookup (s : Session) : SourceLookup × Session :=
  let (entries, s) := s.visitAll DebugUnit.entries
  let (tables, s) := s.visitAll DebugUnit.readLineTable
  ({ index := .ofEntries entries.flatten, rows := .ofTables (tables.filterMap id) }, s)

/-- The symbols of a table with the sources that debug information gives them. -/
def DebugInfo.attributeAll (d : DebugInfo) (t : SymbolTable) : SymbolTable × MatchCounts :=
  (Session.start d).sourceLookup.1.attributeAll t

end StackSurvey.Dwarf
