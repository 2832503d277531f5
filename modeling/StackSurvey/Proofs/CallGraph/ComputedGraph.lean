import StackSurvey.Proofs.CallGraph.RecursionClass

namespace StackSurvey

theorem Recursion.rank_le (r : Recursion) : r.rank ≤ 3 := by cases r <;> decide

theorem Recursion.eq_self_iff {r : Recursion} : r = .self ↔ r.rank = 3 :=
  ⟨congrArg rank, fun h => rank_injective h⟩

namespace CallGraph

open Relation

variable {g k : CallGraph} {report : StackReport} {i : Nat} {node : CallNode}

section Search

variable {nodes nodes' : Array CallNode} {path : List Nat} {index : Nat}

/-- What a search reads of a function. -/
def searched (node : CallNode) : List Nat × Nat × Bool :=
  (node.callees, node.localStack, node.recursion = .self)

theorem explore_congr (h : nodes'.map searched = nodes.map searched) :
    explore nodes' path index = explore nodes path index := by
  have hindex (i : Nat) : (nodes'[i]?).map searched = (nodes[i]?).map searched := by
    rw [← Array.getElem?_map, ← Array.getElem?_map, h]
  induction path, index using explore_induction nodes with
  | met path index hp => rw [explore_of_mem hp, explore_of_mem hp]
  | unknown path index hp hi =>
    have hi' := hindex index
    rw [hi, Option.map_none, Option.map_eq_none_iff] at hi'
    rw [explore_of_none hp hi, explore_of_none hp hi']
  | entered path index node hp hi ih =>
    have hi' := hindex index
    rw [hi, Option.map_some, Option.map_eq_some_iff] at hi'
    obtain ⟨node', hi', hnode⟩ := hi'
    obtain ⟨hcallees, hrest⟩ := Prod.mk.inj hnode
    obtain ⟨hstack, hself⟩ := Prod.mk.inj hrest
    rw [explore_of_getElem? hp hi, explore_of_getElem? hp hi', hcallees]
    have hstart : BranchReport.start index node' = BranchReport.start index node := by
      unfold BranchReport.start
      simp only [decide_eq_decide.1 hself]
    have hbelow : explore nodes' (index :: path) = explore nodes (index :: path) := funext ih
    rw [hstart, hbelow, BranchReport.finish, BranchReport.finish, Chain.after, Chain.after, hstack]

theorem recursionPoints_congr (h : nodes'.map searched = nodes.map searched) :
    recursionPoints nodes' = recursionPoints nodes := by
  have hsize := congrArg Array.size h
  rw [Array.size_map, Array.size_map] at hsize
  rw [recursionPoints, recursionPoints, hsize]
  congr 1
  funext i
  rw [explore_congr h]

theorem hasCallee_congr (h : nodes'.map searched = nodes.map searched) :
    HasCallee nodes' = HasCallee nodes := by
  have hsearched (nodes : Array CallNode) (a b : Nat) :
      HasCallee nodes a b ↔ ∃ s, (nodes.map searched)[a]? = some s ∧ b ∈ s.1 := by
    rw [HasCallee, Array.getElem?_map]
    cases nodes[a]? with
    | none => simp
    | some node => simp [searched]
  funext a b
  rw [eq_iff_iff, hsearched, hsearched, h]

end Search

theorem recursion_exploredNode_eq_self_iff (nodes : Array CallNode) (i : Nat) (node : CallNode) :
    (exploredNode nodes i node).recursion = .self ↔ node.recursion = .self := by
  have hmost := node.recursion.rank_le
  rw [Recursion.eq_self_iff, Recursion.eq_self_iff, rank_exploredNode]
  split <;> split <;> omega

/-- What a search tells of a function does not show in the next search. -/
theorem searched_exploredNode (nodes : Array CallNode) (i : Nat) (node : CallNode) :
    searched (exploredNode nodes i node) = searched node := by
  rw [searched, searched, callees_exploredNode, localStack_exploredNode,
    decide_eq_decide.2 (recursion_exploredNode_eq_self_iff nodes i node)]

theorem map_searched_compute (g : CallGraph) (report : StackReport) :
    (g.compute report).1.nodes.map searched = (g.resolvedNodes report).map searched := by
  apply Array.ext_getElem?
  intro i
  rw [Array.getElem?_map, Array.getElem?_map, getElem?_nodes_compute, getElem?_resolvedNodes,
    Option.map_map, Option.map_map]
  congr 1
  funext node
  exact searched_exploredNode ..

theorem hasCallee_compute (g : CallGraph) (report : StackReport) :
    HasCallee (g.compute report).1.nodes = HasCallee (g.resolvedNodes report) :=
  hasCallee_congr (map_searched_compute g report)

theorem explore_compute (g : CallGraph) (report : StackReport) (path : List Nat) (index : Nat) :
    explore (g.compute report).1.nodes path index =
      explore (g.resolvedNodes report) path index :=
  explore_congr (map_searched_compute g report)

theorem nodup_callees_compute (hnode : node ∈ (g.compute report).1.nodes) :
    node.callees.Nodup := by
  obtain ⟨i, hi⟩ := Array.mem_iff_getElem?.1 hnode
  rw [getElem?_nodes_compute] at hi
  obtain ⟨source, -, rfl⟩ := Option.map_eq_some_iff.1 hi
  rw [callees_exploredNode]
  exact nodup_calleesOf g i source

theorem graphStack_compute (hnode : (g.compute report).1.nodes[i]? = some node) :
    node.graphStack = (explore (g.compute report).1.nodes [] i).chain.stack := by
  rw [getElem?_nodes_compute] at hnode
  obtain ⟨source, -, rfl⟩ := Option.map_eq_some_iff.1 hnode
  rw [explore_compute]
  exact (chain_exploredNode ..).1

/-- A function without what computations give it. -/
def withoutResults (node : CallNode) : CallNode :=
  { node with localStack := 0, graphStack := 0, depth := 0, callees := [], recursion := .none }

/-- Functions with the same figures and the same class are the same, if they were before any
computation. -/
theorem eq_of_withoutResults {a b : CallNode} (h : withoutResults a = withoutResults b)
    (hlocal : a.localStack = b.localStack) (hgraph : a.graphStack = b.graphStack)
    (hdepth : a.depth = b.depth) (hcallees : a.callees = b.callees)
    (hrecursion : a.recursion = b.recursion) : a = b := by
  cases a
  cases b
  unfold withoutResults at h
  simp_all

/-- The function at an index after a computation. -/
def computedNode (g : CallGraph) (report : StackReport) (i : Nat) (node : CallNode) : CallNode :=
  exploredNode (g.resolvedNodes report) i (g.resolveNode report i node)

theorem withoutResults_computedNode :
    withoutResults (g.computedNode report i node) = withoutResults node := by
  unfold computedNode exploredNode
  split <;> rfl

theorem map_withoutResults_compute (g : CallGraph) (report : StackReport) :
    (g.compute report).1.nodes.map withoutResults = g.nodes.map withoutResults := by
  apply Array.ext_getElem?
  intro i
  rw [Array.getElem?_map, getElem?_nodes_compute, Array.getElem?_map, Option.map_map]
  congr 1
  funext node
  exact withoutResults_computedNode

theorem size_nodes_compute (g : CallGraph) (report : StackReport) :
    (g.compute report).1.nodes.size = g.nodes.size := by
  have hsize := congrArg Array.size (map_withoutResults_compute g report)
  rwa [Array.size_map, Array.size_map] at hsize

theorem known_compute (hg : g.Indexed) (a b : Nat)
    (h : HasCallee (g.compute report).1.nodes a b) : b < (g.compute report).1.nodes.size := by
  rw [hasCallee_compute, hasCallee_resolvedNodes hg] at h
  rw [size_nodes_compute]
  exact (lt_of_callsTo h).2

theorem hasCallee_resolvedNodes_iff {a b : Nat} :
    HasCallee (g.resolvedNodes report) a b ↔
      b ≠ a ∧ ∃ node, g.nodes[a]? = some node ∧
        ∃ call ∈ node.calls, g.bySymbol[call.symbolNumber]? = some b := by
  rw [HasCallee, getElem?_resolvedNodes]
  cases g.nodes[a]? with
  | none => simp
  | some node => simp [resolveNode, mem_calleesOf]

theorem irrefl_resolvedNodes (a : Nat) : ¬ HasCallee (g.resolvedNodes report) a a :=
  fun h => (hasCallee_resolvedNodes_iff.1 h).1 rfl

theorem rank_resolveNode (g : CallGraph) (report : StackReport) (i : Nat) (node : CallNode) :
    (g.resolveNode report i node).recursion.rank =
      max node.recursion.rank (if g.callsItself i node then 3 else 0) := by
  rw [resolveNode, Recursion.rank_escalate]
  split <;> rfl

theorem rank_le_computedNode :
    node.recursion.rank ≤ (g.computedNode report i node).recursion.rank := by
  have hresolved := rank_resolveNode g report i node
  rw [computedNode, rank_exploredNode]
  omega

/-- A function has a recursion class if its search meets recursion. -/
theorem recursion_eq_none_iff (hg : g.Indexed) (hu : Unclassified g)
    (hnode : (g.compute report).1.nodes[i]? = some node) :
    node.recursion = .none ↔ (explore (g.compute report).1.nodes [] i).points = [] := by
  rw [getElem?_nodes_compute] at hnode
  obtain ⟨source, hsource, rfl⟩ := Option.map_eq_some_iff.1 hnode
  have hrank (r : Recursion) : r = .none ↔ r.rank = 0 :=
    ⟨congrArg Recursion.rank, fun h => Recursion.rank_injective h⟩
  have hresolved : (g.resolvedNodes report)[i]? = some (g.resolveNode report i source) := by
    rw [getElem?_resolvedNodes, hsource]
    rfl
  rw [explore_compute, hrank, rank_exploredNode]
  constructor
  · intro h
    split at h
    · exact List.isEmpty_iff.1 ‹_›
    · omega
  · intro h
    have hself : (g.resolveNode report i source).recursion ≠ .self :=
      recursion_ne_self h .refl hresolved
    have hclass := recursion_resolveNode report hg hu hsource
    have hnone : (g.resolveNode report i source).recursion = .none := by
      rw [hclass] at hself ⊢
      split at hself
      · exact absurd rfl hself
      · rename_i hcalls
        exact if_neg hcalls
    have hpoint : i ∉ recursionPoints (g.resolvedNodes report) := fun hpoint =>
      (points_eq_nil_iff irrefl_resolvedNodes).1 h
        ⟨i, .refl, (mem_recursionPoints irrefl_resolvedNodes).1 hpoint⟩
    rw [hnone, h, if_neg hpoint]
    rfl

/-- A graph has the functions of another in their places, and each of its symbols. -/
structure Extends (g k : CallGraph) : Prop where
  nodes : ∀ (i : Nat) (node : CallNode), g.nodes[i]? = some node → k.nodes[i]? = some node
  symbols : ∀ n i : Nat, g.bySymbol[n]? = some i → k.bySymbol[n]? = some i

theorem extends_addNode (g : CallGraph) (node : CallNode) : g.Extends (g.addNode node) := by
  constructor
  · intro i other hi
    obtain ⟨hlt, -⟩ := Array.getElem?_eq_some_iff.1 hi
    rw [addNode, Array.getElem?_push, if_neg (Nat.ne_of_lt hlt), hi]
  · intro n i hn
    rw [addNode, Std.HashMap.getElem?_insertIfNew, if_neg, hn]
    rintro ⟨heq, hnew⟩
    rw [beq_iff_eq] at heq
    subst n
    rw [Std.HashMap.mem_iff_isSome_getElem?, hn] at hnew
    exact hnew rfl

namespace Extends

variable (h : g.Extends k)

include h

theorem callsItself (hself : g.callsItself i node = true) : k.callsItself i node = true := by
  unfold CallGraph.callsItself at *
  rw [List.any_eq_true] at *
  obtain ⟨call, hcall, htarget⟩ := hself
  rw [beq_iff_eq] at htarget
  exact ⟨call, hcall, beq_iff_eq.2 (h.symbols _ _ htarget)⟩

theorem hasCallee {a b : Nat} (hcallee : HasCallee (g.resolvedNodes report) a b) :
    HasCallee (k.resolvedNodes report) a b := by
  rw [hasCallee_resolvedNodes_iff] at *
  obtain ⟨hne, node, hnode, call, hcall, htarget⟩ := hcallee
  exact ⟨hne, node, h.nodes _ _ hnode, call, hcall, h.symbols _ _ htarget⟩

theorem rank_resolveNode_le (report : StackReport) (i : Nat) (node : CallNode) :
    (g.resolveNode report i node).recursion.rank ≤
      (k.resolveNode report i node).recursion.rank := by
  rw [rank_resolveNode, rank_resolveNode]
  by_cases hself : g.callsItself i node = true
  · rw [if_pos hself, if_pos (h.callsItself hself)]
  · rw [if_neg hself]
    omega

theorem markedSelf (hself : MarkedSelf (g.resolvedNodes report) i) :
    MarkedSelf (k.resolvedNodes report) i := by
  obtain ⟨resolved, hresolved, hself⟩ := hself
  rw [getElem?_resolvedNodes] at hresolved
  obtain ⟨node, hnode, rfl⟩ := Option.map_eq_some_iff.1 hresolved
  have hle := h.rank_resolveNode_le report i node
  have hmax := (k.resolveNode report i node).recursion.rank_le
  rw [Recursion.eq_self_iff] at hself
  refine ⟨k.resolveNode report i node, ?_, Recursion.eq_self_iff.2 (by omega)⟩
  rw [getElem?_resolvedNodes, h.nodes i node hnode]
  rfl

theorem takesPart (hpart : TakesPart (g.resolvedNodes report) i) :
    TakesPart (k.resolvedNodes report) i := by
  refine hpart.imp h.markedSelf fun hcycle => ?_
  rw [onCycle_iff_transGen irrefl_resolvedNodes] at *
  exact TransGen.mono (fun _ _ => h.hasCallee) _ _ hcycle

/-- In a larger graph a function has no milder class. -/
theorem rank_computedNode_le (report : StackReport) (i : Nat) (node : CallNode) :
    (g.computedNode report i node).recursion.rank ≤
      (k.computedNode report i node).recursion.rank := by
  have hnone (hnil : (explore (k.resolvedNodes report) [] i).points = []) :
      (explore (g.resolvedNodes report) [] i).points = [] := by
    rw [points_eq_nil_iff irrefl_resolvedNodes] at *
    rintro ⟨j, hreach, hpart⟩
    exact hnil ⟨j, ReflTransGen.mono (fun _ _ => h.hasCallee) _ _ hreach, h.takesPart hpart⟩
  have hpoint (hmem : i ∈ recursionPoints (g.resolvedNodes report)) :
      i ∈ recursionPoints (k.resolvedNodes report) := by
    rw [mem_recursionPoints irrefl_resolvedNodes] at *
    exact h.takesPart hmem
  have hown := h.rank_resolveNode_le report i node
  rw [computedNode, computedNode, rank_exploredNode, rank_exploredNode]
  simp only [List.isEmpty_iff]
  have hreached : (if (explore (g.resolvedNodes report) [] i).points = [] then 0 else 1) ≤
      if (explore (k.resolvedNodes report) [] i).points = [] then 0 else 1 := by
    split
    · exact Nat.zero_le _
    · rw [if_neg (mt hnone ‹_›)]
  have hmet : (if i ∈ recursionPoints (g.resolvedNodes report) then 2 else 0) ≤
      if i ∈ recursionPoints (k.resolvedNodes report) then 2 else 0 := by
    split
    · rw [if_pos (hpoint ‹_›)]
    · exact Nat.zero_le _
  omega

end Extends

end CallGraph

end StackSurvey
