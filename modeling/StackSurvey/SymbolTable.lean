import StackSurvey.Symbol
import Std.Data.HashMap

namespace StackSurvey

/-- The symbols of an object file. -/
structure SymbolTable where
  symbols : Array AnnotatedSymbol := #[]
  /-- Number of sections in the file. -/
  sectionCount : Nat := 0
  /-- The places of the symbols with a name, in order. -/
  byName : Std.HashMap String (Array Nat) := ∅
deriving Inhabited

namespace SymbolTable

/-- The table of a file with some number of sections, without symbols. -/
def empty (sectionCount : Nat) : SymbolTable := { sectionCount }

def size (t : SymbolTable) : Nat := t.symbols.size

def push (t : SymbolTable) (s : AnnotatedSymbol) : SymbolTable :=
  { t with
    symbols := t.symbols.push s
    byName := t.byName.alter s.symbol.name fun places => some ((places.getD #[]).push t.size) }

/-- True of the sections of the file, which undefined, absolute and common symbols are not in. -/
def sectionIsKnown (t : SymbolTable) (index : Nat) : Bool := index ≠ 0 && index < t.sectionCount

/-- The places of the symbols with a name, in order. -/
def indicesByName (t : SymbolTable) (name : String) : List Nat :=
  (t.byName.getD name #[]).toList

/-- The symbols with a name, in order. -/
def symbolsByName (t : SymbolTable) (name : String) : List AnnotatedSymbol :=
  (t.indicesByName name).filterMap (t.symbols[·]?)

/-- Changes the notes on the symbol at a place. -/
def annotate (t : SymbolTable) (index : Nat) (change : AnnotatedSymbol → Annotation) :
    SymbolTable :=
  { t with symbols := t.symbols.modify index fun s => { s with notes := change s } }

def annotateAll (t : SymbolTable) (change : AnnotatedSymbol → Annotation) : SymbolTable :=
  { t with symbols := t.symbols.map fun s => { s with notes := change s } }

end SymbolTable

namespace AnnotatedSymbol

/-- The readable name that is found for a symbol which has none so far. -/
def newName? (demangle? : String → Option String) (s : AnnotatedSymbol) : Option String :=
  if s.notes.demangled.isSome then none else demangle? s.symbol.name

/-- The notes on a symbol with the readable name in them. -/
def demangledNotes (demangle? : String → Option String) (s : AnnotatedSymbol) : Annotation :=
  match s.newName? demangle? with
  | some name => { s.notes with demangled := some name, nameSource := .demangler }
  | none => s.notes

end AnnotatedSymbol

/-- Notes the readable names of symbols, and counts those that it has found. -/
def SymbolTable.demangleAll (demangle? : String → Option String) (t : SymbolTable) :
    SymbolTable × Nat :=
  (t.annotateAll (·.demangledNotes demangle?),
    t.symbols.toList.countP fun s => (s.newName? demangle?).isSome)

end StackSurvey
