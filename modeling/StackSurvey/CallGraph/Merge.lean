import StackSurvey.CallGraph.Basic
import StackSurvey.SymbolTable

namespace StackSurvey.CallGraph

/-- Names with further ones that are not among them yet. -/
def addNames (names : Array String) (more : List String) : Array String :=
  more.foldl (fun names name => if names.contains name then names else names.push name) names

/-- Notes with the worst case of a function, if it is greater than the one noted. -/
def noteWorst (notes : Annotation) (node : CallNode) : Annotation :=
  if notes.graphStack.all (· < node.graphStack) then
    { notes with
      graphStack := some node.graphStack
      stackDepth := some node.depth
      localStack := if 0 < node.localStack then some node.localStack else notes.localStack }
  else
    notes

/-- Notes with what is known of a function. -/
def noteNode (node : CallNode) (callees : List String) (notes : Annotation) : Annotation :=
  let noted := noteWorst notes node
  { noted with
    recursion := notes.recursion.escalate node.recursion
    callees := addNames notes.callees callees }

/-- True if recursion, worst case or number of callees differ. -/
def differs (a b : Annotation) : Bool :=
  a.recursion ≠ b.recursion || a.graphStack ≠ b.graphStack || a.callees.size ≠ b.callees.size

/-- Merges a function into the symbol at a place; counts it if that changes it. -/
def mergeAt (node : CallNode) (callees : List String) (state : SymbolTable × Nat) (index : Nat) :
    SymbolTable × Nat :=
  let (t, changed) := state
  match t.symbols[index]? with
  | some s =>
    let noted := noteNode node callees s.notes
    (t.annotate index fun _ => noted, if differs s.notes noted then changed + 1 else changed)
  | none => (t, changed)

/-- Merges a function into the symbols with its name; one without stack and without recursion is
not merged. -/
def mergeNode (g : CallGraph) (state : SymbolTable × Nat) (node : CallNode) : SymbolTable × Nat :=
  if node.graphStack = 0 ∧ !node.recursion.isRecursive then
    state
  else
    let callees := node.callees.filterMap fun callee => (g.nodes[callee]?).map (·.mangledName)
    (state.1.indicesByName node.mangledName).foldl (mergeAt node callees) state

/-- Merges a graph into a symbol table; counts the changes. -/
def mergeInto (g : CallGraph) (symbols : SymbolTable) : SymbolTable × Nat :=
  g.nodes.foldl g.mergeNode (symbols, 0)

end StackSurvey.CallGraph
