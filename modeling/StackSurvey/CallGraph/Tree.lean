import StackSurvey.CallGraph.Basic

namespace StackSurvey.CallGraph

/-- Number of functions that are not on a path. -/
def offPath (size : Nat) (path : List Nat) : Nat :=
  (List.range size).countP fun i => !path.contains i

theorem countP_lt_countP {α : Type} {p q : α → Bool} {xs : List α} {x : α}
    (h : ∀ y, q y = true → p y = true) (hx : x ∈ xs) (hp : p x = true) (hq : q x = false) :
    xs.countP q < xs.countP p := by
  induction xs with
  | nil => cases hx
  | cons y ys ih =>
    have hle : ys.countP q ≤ ys.countP p := List.countP_mono_left fun y _ => h y
    simp only [List.countP_cons]
    rcases List.mem_cons.1 hx with rfl | hx
    · simp only [hp, hq, if_true]
      simp only [Bool.false_eq_true, if_false]
      omega
    · have := ih hx
      by_cases hqy : q y = true
      · simp only [hqy, h y hqy, if_true]
        omega
      · simp only [hqy, Bool.false_eq_true, if_false]
        split <;> omega

theorem offPath_cons {size index : Nat} {path : List Nat} (hi : index < size)
    (hp : path.contains index = false) : offPath size (index :: path) < offPath size path := by
  refine countP_lt_countP (x := index) (fun y hy => ?_) (List.mem_range.2 hi) ?_ ?_
  · simp only [List.contains_cons, Bool.not_or, Bool.and_eq_true] at hy
    exact hy.2
  · rw [hp]
    rfl
  · simp

/-- Blanks before the name of a function. -/
def indented (indent : Nat) (text : String) : String := .ofList (List.replicate indent ' ') ++ text

/-- The lines below a path of functions. A call back to a function on the path is marked and not
followed, so every line puts a further function on the path. -/
def treeLines (nodes : Array CallNode) (path : List Nat) (indent index : Nat) : List String :=
  if hi : index < nodes.size then
    let node := nodes[index]
    if hp : path.contains index then
      [indented indent s!"{node.name} (STOP)"]
    else
      indented indent s!"{node.name} local={node.localStack} graph={node.graphStack}" ::
        node.callees.flatMap fun callee => treeLines nodes (index :: path) (indent + 2) callee
  else
    []
termination_by offPath nodes.size path
decreasing_by exact offPath_cons hi (by simpa using hp)

/-- The call tree below the first function with a mangled name. -/
def renderTree? (g : CallGraph) (mangledName : String) : Option String :=
  (g.nodes.findIdx? (·.mangledName == mangledName)).map fun index =>
    String.join ((treeLines g.nodes [] 0 index).map (· ++ "\n"))

end StackSurvey.CallGraph
