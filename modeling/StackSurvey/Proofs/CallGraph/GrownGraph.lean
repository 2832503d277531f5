import StackSurvey.Proofs.CallGraph.ComputedGraph

namespace StackSurvey.CallGraph

variable {g : CallGraph} {functions : Array CallNode} {report : StackReport} {i n : Nat}
  {node : CallNode}

/-- The call graphs that added functions without callees and computations lead to from no function
or from those of a dump, each with its functions as they were added. -/
inductive Grown : Array CallNode → CallGraph → Prop
  | empty : Grown #[] {}
  | parsed {text : String} {g : CallGraph} (h : parse text = .ok g) : Grown g.nodes g
  | added {functions : Array CallNode} {g : CallGraph} {node : CallNode} (h : Grown functions g)
    (hcallees : node.callees = []) : Grown (functions.push node) (g.addNode node)
  | computed {functions : Array CallNode} {g : CallGraph} (h : Grown functions g)
    (report : StackReport) : Grown functions (g.compute report).1

namespace Grown

theorem built (h : Grown functions g) : Built g := by
  induction h with
  | empty => exact .empty
  | parsed h => exact .parsed h
  | added _ _ ih => exact .added ih _
  | computed _ report ih => exact .computed ih report

/-- The functions of a graph are those that were added, in order, but for their results. -/
theorem map_withoutResults (h : Grown functions g) :
    g.nodes.map withoutResults = functions.map withoutResults := by
  induction h with
  | empty => rfl
  | parsed h => rfl
  | added _ _ ih => rw [addNode, Array.map_push, Array.map_push, ih]
  | computed _ report ih => rw [map_withoutResults_compute, ih]

theorem size_eq (h : Grown functions g) : g.nodes.size = functions.size := by
  have hsize := congrArg Array.size h.map_withoutResults
  rwa [Array.size_map, Array.size_map] at hsize

/-- A symbol number leads to the first function that was added with it. -/
theorem getElem?_bySymbol (h : Grown functions g) (n : Nat) :
    g.bySymbol[n]? = functions.findIdx? (·.symbolNumber == n) := by
  have hresults (nodes : Array CallNode) : nodes.findIdx? (·.symbolNumber == n) =
      (nodes.map withoutResults).findIdx? (·.symbolNumber == n) := by
    rw [Array.findIdx?_map]
    rfl
  rw [h.built.indexed n, target?, hresults, h.map_withoutResults, ← hresults]

theorem nodeBySymbol?_eq (h : Grown functions g) (n : Nat) :
    g.nodeBySymbol? n = (functions.findIdx? (·.symbolNumber == n)).bind (g.nodes[·]?) := by
  rw [nodeBySymbol?, h.getElem?_bySymbol]

/-- A symbol number finds no function exactly if none was added with it. -/
theorem nodeBySymbol?_eq_none_iff (h : Grown functions g) :
    g.nodeBySymbol? n = none ↔ ∀ node ∈ functions, node.symbolNumber ≠ n := by
  rw [h.nodeBySymbol?_eq, Option.bind_eq_none_iff]
  constructor
  · intro hfound
    cases hfirst : functions.findIdx? (·.symbolNumber == n) with
    | none => simpa using Array.findIdx?_eq_none_iff.1 hfirst
    | some first =>
      obtain ⟨hlt, -⟩ := Array.findIdx?_eq_some_iff_getElem.1 hfirst
      have hle := Array.getElem?_eq_none_iff.1 (hfound first hfirst)
      rw [h.size_eq] at hle
      exact absurd hlt (Nat.not_lt_of_le hle)
  · intro hnone first hfirst
    obtain ⟨hlt, hsymbol, -⟩ := Array.findIdx?_eq_some_iff_getElem.1 hfirst
    exact absurd (beq_iff_eq.1 hsymbol) (hnone _ (Array.getElem_mem hlt))

end Grown

/-- The callees of the function at an index are distinct, and others of so many functions. -/
structure CalleesWithin (size i : Nat) (node : CallNode) : Prop where
  nodup : node.callees.Nodup
  lt_size : ∀ callee ∈ node.callees, callee < size
  ne : ∀ callee ∈ node.callees, callee ≠ i

theorem calleesWithin_of_eq_nil {size : Nat} (h : node.callees = []) :
    CalleesWithin size i node := by
  constructor <;> rw [h]
  · exact List.nodup_nil
  · exact List.forall_mem_nil _
  · exact List.forall_mem_nil _

theorem CalleesWithin.mono {size size' : Nat} (h : CalleesWithin size i node)
    (hsize : size ≤ size') : CalleesWithin size' i node :=
  ⟨h.nodup, fun callee hcallee => Nat.lt_of_lt_of_le (h.lt_size callee hcallee) hsize, h.ne⟩

/-- Every function has its callees within the graph. -/
def HasCalleesWithin (g : CallGraph) : Prop :=
  ∀ (i : Nat) (node : CallNode), g.nodes[i]? = some node → CalleesWithin g.nodes.size i node

theorem hasCalleesWithin_of_eq_nil (h : ∀ node ∈ g.nodes, node.callees = []) :
    g.HasCalleesWithin :=
  fun _ node hnode => calleesWithin_of_eq_nil (h node (Array.mem_of_getElem? hnode))

theorem HasCalleesWithin.addNode (h : g.HasCalleesWithin) (hcallees : node.callees = []) :
    (g.addNode node).HasCalleesWithin := by
  intro i other hother
  rw [CallGraph.addNode, Array.getElem?_push] at hother
  split at hother
  · cases hother
    exact calleesWithin_of_eq_nil hcallees
  · refine (h i other hother).mono ?_
    rw [CallGraph.addNode, Array.size_push]
    exact Nat.le_succ _

theorem callees_compute (hnode : (g.compute report).1.nodes[i]? = some node) :
    node.callees = g.calleesOf i node := by
  rw [getElem?_nodes_compute] at hnode
  obtain ⟨source, -, rfl⟩ := Option.map_eq_some_iff.1 hnode
  have hcalls : (exploredNode (g.resolvedNodes report) i
      (g.resolveNode report i source)).calls = source.calls := by
    unfold exploredNode
    split <;> rfl
  rw [callees_exploredNode, calleesOf, hcalls]
  rfl

/-- Where functions are found by their symbol numbers, a computation gives them callees within the
graph, whatever callees they had. -/
theorem Indexed.hasCalleesWithin_compute (h : g.Indexed) (report : StackReport) :
    (g.compute report).1.HasCalleesWithin := by
  intro i node hnode
  rw [size_nodes_compute]
  have hmem (callee : Nat) (hcallee : callee ∈ node.callees) :
      callee < g.nodes.size ∧ callee ≠ i := by
    rw [callees_compute hnode, mem_calleesOf] at hcallee
    obtain ⟨hne, call, -, htarget⟩ := hcallee
    rw [h, target?] at htarget
    exact ⟨(Array.findIdx?_eq_some_iff_getElem.1 htarget).1, hne⟩
  exact ⟨nodup_callees_compute (Array.mem_of_getElem? hnode), fun callee h => (hmem callee h).1,
    fun callee h => (hmem callee h).2⟩

theorem Grown.hasCalleesWithin (h : Grown functions g) : g.HasCalleesWithin := by
  induction h with
  | empty => exact hasCalleesWithin_of_eq_nil fun _ hnode => absurd hnode (Array.not_mem_empty _)
  | parsed h =>
    -- The lines of a dump name calls, which only a computation resolves.
    exact hasCalleesWithin_of_eq_nil
      (forall_mem_of_parse (fun _ _ _ _ => rfl) (fun _ _ hn => hn) (fun _ _ hn => hn) h)
  | added _ hcallees ih => exact ih.addNode hcallees
  | computed h report _ => exact h.built.indexed.hasCalleesWithin_compute report

/-- Adding targets one by one keeps the first occurrence of each that is new. -/
theorem foldl_addCallee_eq (targets callees : List Nat) :
    targets.foldl (addCallee i) callees =
      callees ++ (targets.filter fun target => target ≠ i ∧ target ∉ callees).eraseDups := by
  induction targets generalizing callees with
  | nil => exact (List.append_nil callees).symm
  | cons target targets ih =>
    rw [List.foldl_cons, ih, addCallee, List.filter_cons]
    by_cases hold : target = i ∨ callees.contains target = true
    · rw [if_pos hold, if_neg]
      rw [List.contains_iff_mem] at hold
      simpa only [decide_eq_true_eq, not_and_or, not_not] using hold
    · have hnew : target ≠ i ∧ target ∉ callees := by
        rwa [List.contains_iff_mem, not_or] at hold
      rw [if_neg hold, if_pos (decide_eq_true hnew), List.eraseDups_cons, List.filter_filter,
        List.append_assoc, List.singleton_append]
      congr 3
      apply List.filter_congr
      intro other _
      by_cases hother : other = target <;> simp [hother]

/-- The indices of the first functions that were added with the numbers of a function's calls. -/
def callTargets (functions : Array CallNode) (node : CallNode) : List Nat :=
  node.calls.filterMap fun call => functions.findIdx? (·.symbolNumber == call.symbolNumber)

theorem Grown.calleesOf_eq (h : Grown functions g) (i : Nat) (node : CallNode) :
    g.calleesOf i node = ((callTargets functions node).filter (· ≠ i)).eraseDups := by
  have htargets : g.targets node = callTargets functions node := by
    rw [targets, callTargets]
    congr 1
    funext call
    exact h.getElem?_bySymbol call.symbolNumber
  rw [calleesOf_eq_foldl, foldl_addCallee_eq, htargets, List.nil_append]
  simp

/-- In every graph that grows, symbol numbers find the functions that were added first with them,
which are as they were added but for their results. The callees of each function are distinct
indices of others, and after a computation they are what its calls lead to first, in the order of
the calls, but for itself. -/
theorem indices_of_grown (h : Grown functions g) :
    (g.nodes.map withoutResults = functions.map withoutResults ∧
      ∀ n, g.nodeBySymbol? n = (functions.findIdx? (·.symbolNumber == n)).bind (g.nodes[·]?) ∧
        (g.nodeBySymbol? n = none ↔ ∀ node ∈ functions, node.symbolNumber ≠ n)) ∧
    (∀ i node, g.nodes[i]? = some node → CalleesWithin g.nodes.size i node) ∧
    ∀ report i node, (g.compute report).1.nodes[i]? = some node →
      node.callees = ((callTargets functions node).filter (· ≠ i)).eraseDups := by
  refine ⟨⟨h.map_withoutResults, fun n => ⟨h.nodeBySymbol?_eq n, h.nodeBySymbol?_eq_none_iff⟩⟩,
    h.hasCalleesWithin, fun report i node hnode => ?_⟩
  rw [callees_compute hnode, h.calleesOf_eq]

/-- A function that calls others, itself, and one that is not there. -/
def numberedCaller : CallNode where
  symbolNumber := 1
  calls := [2, 3, 2, 1, 7].map fun symbolNumber => { name := "f", symbolNumber }

/-- Functions of which two have one number. -/
def numberedFunctions : Array CallNode :=
  (((#[].push numberedCaller).push { symbolNumber := 2, name := "a" }).push
    { symbolNumber := 2, name := "b" }).push { symbolNumber := 3 }

/-- A graph that is computed before the last function is added. -/
def numberedGraph (report : StackReport) : CallGraph :=
  (((({} : CallGraph).addNode numberedCaller).addNode { symbolNumber := 2, name := "a" }).addNode
    { symbolNumber := 2, name := "b" } |>.compute report).1.addNode { symbolNumber := 3 }

theorem indices_of_grown_numberedFunctions :
    Grown numberedFunctions (numberedGraph ∅) ∧
      (numberedGraph ∅).nodeBySymbol? 2 = (numberedGraph ∅).nodes[1]? ∧
      (numberedGraph ∅).nodeBySymbol? 7 = none ∧
      ∃ node, ((numberedGraph ∅).compute ∅).1.nodes[0]? = some node ∧ node.callees = [1, 3] := by
  have hgrown : Grown numberedFunctions (numberedGraph ∅) :=
    .added (.computed (.added (.added (.added .empty rfl) rfl) rfl) ∅) rfl
  obtain ⟨⟨hresults, hfound⟩, -, hcallees⟩ := indices_of_grown hgrown
  have hfirst : numberedFunctions.findIdx? (·.symbolNumber == 2) = some 1 := by decide +kernel
  refine ⟨hgrown, ?_, (hfound 7).2.2 ?_, ?_⟩
  · rw [(hfound 2).1, hfirst]
    rfl
  · simp [numberedFunctions, numberedCaller]
  · have hnodes := congrArg (·[0]?) (hgrown.computed ∅).map_withoutResults
    rw [Array.getElem?_map, Array.getElem?_map] at hnodes
    have hcaller :
        numberedFunctions[0]?.map withoutResults = some (withoutResults numberedCaller) :=
      rfl
    obtain ⟨node, hnode, hsame⟩ := Option.map_eq_some_iff.1 (hnodes.trans hcaller)
    have hcalls := congrArg CallNode.calls hsame
    change node.calls = numberedCaller.calls at hcalls
    refine ⟨node, hnode, ?_⟩
    rw [hcallees ∅ 0 node hnode, callTargets, hcalls]
    decide +kernel

end StackSurvey.CallGraph
