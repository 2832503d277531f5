import StackSurvey.CallGraph.Search
import StackSurvey.StackReport

namespace StackSurvey.CallGraph

/-- The functions that a function's calls resolve to, other than itself, in order of first
occurrence. -/
def calleesOf (g : CallGraph) (index : Nat) (node : CallNode) : List Nat :=
  node.calls.foldl
    (fun callees call =>
      match g.bySymbol[call.symbolNumber]? with
      | some target =>
        if target = index ∨ callees.contains target then callees else callees ++ [target]
      | none => callees)
    []

/-- True if one of a function's calls resolves to itself. -/
def callsItself (g : CallGraph) (index : Nat) (node : CallNode) : Bool :=
  node.calls.any fun call => g.bySymbol[call.symbolNumber]? == some index

/-- A function with its calls resolved and the frame size that a report gives it. -/
def resolveNode (g : CallGraph) (report : StackReport) (index : Nat) (node : CallNode) :
    CallNode :=
  { node with
    localStack := max node.localStack ((report[node.name]?.map (·.stack)).getD 0)
    callees := g.calleesOf index node
    recursion := node.recursion.escalate (if g.callsItself index node then .self else .none) }

/-- A report whose usages know the symbols of the functions with their names. -/
def linkReport (g : CallGraph) (report : StackReport) : StackReport :=
  g.nodes.foldl
    (fun report node =>
      report.modify node.name fun usage =>
        { usage with mangledNames := usage.mangledNames.insert node.mangledName })
    report

/-- A function with its worst chain, and with recursion if it reaches any. -/
def withReport (node : CallNode) (report : BranchReport) : CallNode :=
  { node with
    graphStack := report.chain.stack
    depth := report.chain.frames - 1
    recursion := node.recursion.escalate (if report.points.isEmpty then .none else .reaches) }

/-- A function that recursion was met at. -/
def withLoop (node : CallNode) : CallNode :=
  { node with recursion := node.recursion.escalate .loop }

/-- The functions with their worst chains and recursion classes. -/
def withReports (nodes : Array CallNode) : Array CallNode :=
  let found := (Walker.analyseAll (List.range nodes.size) (.fresh nodes.size)).1
  let reported := nodes.zipWith withReport found.toArray
  (found.flatMap (·.points)).foldl (fun nodes point => nodes.modify point withLoop) reported

/-- Computes the worst case of every function from the frame sizes in a report; the report learns
which symbols its functions have. -/
def compute (g : CallGraph) (report : StackReport) : CallGraph × StackReport :=
  let resolved := g.nodes.mapIdx fun index node => g.resolveNode report index node
  ({ g with nodes := withReports resolved }, g.linkReport report)

end StackSurvey.CallGraph
