namespace StackSurvey

/-- What a symbol names. -/
inductive SymbolKind where
  | noType
  | object
  | func
  | section
  | file
  | common
  | tls
  | other (code : Nat)
deriving DecidableEq, Inhabited

namespace SymbolKind

/-- The kind in the low four bits of a symbol's info byte. -/
def ofInfo (info : UInt8) : SymbolKind :=
  match info.toNat % 16 with
  | 0 => noType
  | 1 => object
  | 2 => func
  | 3 => .section
  | 4 => file
  | 5 => common
  | 6 => tls
  | code => other code

def name : SymbolKind → String
  | noType => "NOTYPE"
  | object => "OBJECT"
  | func => "FUNC"
  | .section => "SECTION"
  | file => "FILE"
  | common => "COMMON"
  | tls => "TLS"
  | other code => s!"<{code}>"

end SymbolKind

/-- How far a symbol can be seen. -/
inductive SymbolBinding where
  | local
  | global
  | weak
  | other (code : Nat)
deriving DecidableEq, Inhabited

namespace SymbolBinding

/-- The binding in the high four bits of a symbol's info byte. -/
def ofInfo (info : UInt8) : SymbolBinding :=
  match info.toNat / 16 with
  | 0 => .local
  | 1 => global
  | 2 => weak
  | code => other code

def name : SymbolBinding → String
  | .local => "LOCAL"
  | global => "GLOBAL"
  | weak => "WEAK"
  | other code => s!"<{code}>"

end SymbolBinding

/-- How a function takes part in recursion, from the mildest to the gravest. -/
inductive Recursion where
  | none
  /-- Calls lead from the function to a recursion that it has no part in. -/
  | reaches
  /-- The function lies on a cycle of calls through other functions. -/
  | loop
  /-- The function calls itself. -/
  | self
deriving DecidableEq, Inhabited

namespace Recursion

/-- The place of a class in the order. -/
def rank : Recursion → Nat
  | none => 0
  | reaches => 1
  | loop => 2
  | self => 3

/-- The graver of two classes. -/
def escalate (a b : Recursion) : Recursion := if a.rank < b.rank then b else a

/-- True of every class but the mildest. -/
def isRecursive (r : Recursion) : Bool := r != none

def name : Recursion → String
  | none => "-"
  | reaches => "reaches"
  | loop => "loop"
  | self => "self"

theorem rank_escalate (a b : Recursion) : (a.escalate b).rank = max a.rank b.rank := by
  unfold escalate
  split <;> omega

theorem rank_injective {a b : Recursion} (h : a.rank = b.rank) : a = b := by
  cases a <;> cases b <;> simp_all [rank]

end Recursion

/-- A place in a source file. -/
structure SourceLocation where
  path : String
  line : UInt64
  column : Option UInt64
deriving DecidableEq, Inhabited

/-- Path, line and column, separated by colons. -/
def SourceLocation.text (s : SourceLocation) : String :=
  let column := match s.column with
    | some column => s!":{column}"
    | none => ""
  s!"{s.path}:{s.line}" ++ column

/-- Where the readable name of a symbol comes from. -/
inductive NameSource where
  | raw
  | demangler
  | stackReport
deriving DecidableEq, Inhabited

/-- What the object file says of a symbol. -/
structure Symbol where
  name : String
  value : UInt64 := 0
  size : UInt64 := 0
  kind : SymbolKind := .noType
  binding : SymbolBinding := .local
  visibility : Nat := 0
  sectionIndex : Nat := 0
  sectionName : Option String := none
deriving DecidableEq, Inhabited

/-- What a survey has found out about a symbol. -/
structure Annotation where
  demangled : Option String := none
  nameSource : NameSource := .raw
  source : Option SourceLocation := none
  /-- The source is that of a debug entry, not that of a line table row. -/
  fromEntries : Bool := false
  /-- The address of the entry or row that the source was taken from. -/
  debugAddress : Option UInt64 := none
  localStack : Option Nat := none
  graphStack : Option Nat := none
  stackDepth : Option Nat := none
  recursion : Recursion := .none
  callees : Array String := #[]
deriving DecidableEq, Inhabited

/-- A symbol with its notes. -/
structure AnnotatedSymbol where
  symbol : Symbol
  notes : Annotation := {}
deriving DecidableEq, Inhabited

namespace AnnotatedSymbol

/-- The readable name if there is one. -/
def displayName (s : AnnotatedSymbol) : String := s.notes.demangled.getD s.symbol.name

def isFunction (s : AnnotatedSymbol) : Bool := s.symbol.kind = .func

/-- True if a survey has found a source, a stack figure or recursion. -/
def hasMetadata (s : AnnotatedSymbol) : Bool :=
  s.notes.source.isSome || s.notes.localStack.isSome || s.notes.graphStack.isSome
    || s.notes.recursion.isRecursive

end AnnotatedSymbol

end StackSurvey
