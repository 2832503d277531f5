import StackSurvey.Symbol
import Std.Data.HashMap

namespace StackSurvey

/-- A call as it is written: the symbol called, and its number. -/
structure Call where
  name : String
  symbolNumber : Nat
  inlined : Bool := false
deriving DecidableEq, Inhabited

/-- A function of a call graph. -/
structure CallNode where
  name : String := ""
  mangledName : String := ""
  symbolNumber : Nat := 0
  address : String := ""
  nodeType : String := ""
  localStack : Nat := 0
  /-- The greatest stack of a chain of calls that begins here. -/
  graphStack : Nat := 0
  /-- Functions below this one on that chain. -/
  depth : Nat := 0
  calls : List Call := []
  /-- The functions called, other than this one. -/
  callees : List Nat := []
  recursion : Recursion := .none
deriving DecidableEq, Inhabited

/-- The functions of a translation unit. -/
structure CallGraph where
  nodes : Array CallNode := #[]
  /-- The first function with each symbol number. -/
  bySymbol : Std.HashMap Nat Nat := ∅
deriving Inhabited

namespace CallGraph

def addNode (g : CallGraph) (node : CallNode) : CallGraph :=
  { nodes := g.nodes.push node
    bySymbol := g.bySymbol.insertIfNew node.symbolNumber g.nodes.size }

def nodeBySymbol? (g : CallGraph) (symbolNumber : Nat) : Option CallNode :=
  g.bySymbol[symbolNumber]?.bind (g.nodes[·]?)

/-- The first function with a mangled name. -/
def nodeByName? (g : CallGraph) (mangledName : String) : Option CallNode :=
  g.nodes.find? (·.mangledName == mangledName)

/-- Changes a function, but not its symbol number. -/
def modify (g : CallGraph) (index : Nat) (change : CallNode → CallNode) : CallGraph :=
  { g with nodes := g.nodes.modify index change }

end CallGraph

end StackSurvey
