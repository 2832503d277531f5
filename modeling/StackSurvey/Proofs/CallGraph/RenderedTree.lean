import Mathlib.Algebra.GroupWithZero.Nat
import StackSurvey.Proofs.CallGraph.CallTree
import StackSurvey.Proofs.CallGraph.Recomputation
import StackSurvey.Proofs.CallGraph.WorstChain

namespace StackSurvey.CallGraph

variable {g k : CallGraph} {report : StackReport} {i : Nat} {node : CallNode}
  {nodes nodes' : Array CallNode}

/-- The paths that the lines of a call tree stand for, in the order of the lines. -/
structure ListsDescents (nodes : Array CallNode) (root : Nat) (paths : List (List Nat)) :
    Prop where
  mem_iff : ∀ p, p ∈ paths ↔ Descent nodes root p
  nodup : paths.Nodup
  preorder : paths.Pairwise (Precedes nodes)

/-- The sum of the figures on the lines down to that of a path. A mark is no figure. -/
inductive SumsTo (nodes : Array CallNode) : List Nat → Nat → Prop
  | figures {p : List Nat} (h : p.Nodup) : SumsTo nodes p (stackOn nodes p)
  | mark {p : List Nat} {i : Nat} (h : i ∈ p) : SumsTo nodes (p ++ [i]) (stackOn nodes p)

/-- What the figures down to a line of a call tree sum to is the stack of a simple path. -/
theorem SumsTo.exists_path {root sum : Nat} {p : List Nat} (h : SumsTo nodes p sum)
    (hp : Descent nodes root p) :
    ∃ q, SimplePath (HasCallee nodes) root q ∧ stackOn nodes q = sum := by
  obtain ⟨hhead, hchain, hnodup, -⟩ := hp.passesOnce
  cases h with
  | figures h => exact ⟨p, ⟨hhead, h, hchain⟩, rfl⟩
  | @mark p i h =>
    rw [List.dropLast_concat] at hnodup
    refine ⟨p, ⟨?_, hnodup, (List.isChain_append.1 hchain).1⟩, rfl⟩
    cases p with
    | nil => cases h
    | cons => exact hhead

section

variable {root : Nat} {paths : List (List Nat)}

theorem listsDescents_descents (hg : g.Indexed) (hroot : root < (g.compute report).1.nodes.size) :
    ListsDescents (g.compute report).1.nodes root
      (descents (g.compute report).1.nodes [] root) where
  mem_iff _ := (mem_descents (known_compute hg) hroot).trans descent_iff.symm
  nodup := nodup_descents fun _ => nodup_callees_compute
  preorder := pairwise_descents ..

variable (h : ListsDescents nodes root paths)

include h

theorem isGreatest_sums (hn : Measurable nodes) (hroot : root < nodes.size) :
    IsGreatest {sum | ∃ p ∈ paths, SumsTo nodes p sum} (explore nodes [] root).chain.stack := by
  obtain ⟨⟨p, hp, -, hchain⟩, hbound⟩ := worst_explore hn List.not_mem_nil hroot
  constructor
  · refine ⟨p, (h.mem_iff p).2 (.path hp), ?_⟩
    rw [hchain]
    exact .figures hp.nodup
  · rintro sum ⟨q, hq, hsum⟩
    obtain ⟨q, hq, rfl⟩ := hsum.exists_path ((h.mem_iff q).1 hq)
    have hle := hbound q hq (List.disjoint_nil_right q)
    unfold Chain.Le at hle
    dsimp only [chainOn] at hle
    omega

/-- A search meets recursion if some line is a mark, or shows a function that calls itself. -/
theorem points_ne_nil_iff (hknown : ∀ a b, HasCallee nodes a b → b < nodes.size)
    (hroot : root < nodes.size) :
    (explore nodes [] root).points ≠ [] ↔
      (∃ p ∈ paths, ¬ p.Nodup) ∨ ∃ p ∈ paths, ∃ i, p.getLast? = some i ∧ MarkedSelf nodes i := by
  have hmem (p : List Nat) : p ∈ descents nodes [] root ↔ p ∈ paths :=
    (mem_descents hknown hroot).trans (descent_iff.symm.trans (h.mem_iff p).symm)
  have hends {p : List Nat} {x : Nat} (hp : p ∈ paths) (hlast : p.getLast? = some x) :
      EndsInRecursion nodes [] p x ↔ ¬ p.Nodup ∨ MarkedSelf nodes x := by
    have hnodup := ((h.mem_iff p).1 hp).passesOnce.nodup
    rw [EndsInRecursion, List.nil_append, mem_dropLast_iff hnodup hlast]
    exact and_iff_right hlast
  have hpoints (x : Nat) : x ∈ (explore nodes [] root).points ↔
      ∃ p ∈ paths, EndsInRecursion nodes [] p x := by
    rw [mem_points_iff (List.forall_mem_nil _)]
    simp only [hmem]
  rw [Ne, List.eq_nil_iff_forall_not_mem]
  simp only [hpoints, not_forall, not_not]
  constructor
  · rintro ⟨x, p, hp, hx⟩
    rcases (hends hp hx.1).1 hx with hnodup | hself
    · exact .inl ⟨p, hp, hnodup⟩
    · exact .inr ⟨p, hp, x, hx.1, hself⟩
  · rintro (⟨p, hp, hnodup⟩ | ⟨p, hp, x, hlast, hself⟩)
    · obtain ⟨tail, rfl⟩ := List.head?_eq_some_iff.1 ((h.mem_iff p).1 hp).passesOnce.head
      have hlast := List.getLast?_eq_some_getLast (List.cons_ne_nil root tail)
      exact ⟨_, _, hp, (hends hp hlast).2 (.inl hnodup)⟩
    · exact ⟨x, p, hp, (hends hp hlast).2 (.inr hself)⟩

end

/-- In a graph that is computed last, and whose functions had no recursion class before, the call
tree of a name has one line for every way down from the first function with the name, in
pre-order: a simple path of calls, or one that comes back to a function on it. The greatest sum of
the figures down to a line is the stack of that function, and it has a recursion class if some line
is a mark or shows a function that calls itself. -/
theorem renderTree?_build {steps : List BuildStep} {name : String} (hg : Built g)
    (hu : Unclassified (g.withAdded steps))
    (hk : (build (g, report) (steps ++ [.compute])).1 = k)
    (hfit : ∀ i p, SimplePath (HasCallee k.nodes) i p → stackOn k.nodes p < 2 ^ 64)
    (hname : ∃ node ∈ k.nodes, node.mangledName = name) :
    ∃ root node paths, k.nodes.findIdx? (·.mangledName == name) = some root ∧
      k.nodes[root]? = some node ∧ ListsDescents k.nodes root paths ∧
      k.renderTree? name =
        some (String.join (paths.map fun p => treeLine k.nodes [] 0 p ++ "\n")) ∧
      IsGreatest {sum | ∃ p ∈ paths, SumsTo k.nodes p sum} node.graphStack ∧
      (node.recursion ≠ .none ↔
        (∃ p ∈ paths, ¬ p.Nodup) ∨
          ∃ p ∈ paths, ∃ i, p.getLast? = some i ∧ MarkedSelf k.nodes i) := by
  have hindexed := (hg.withAdded steps).indexed
  obtain ⟨root, hroot⟩ : ∃ root, k.nodes.findIdx? (·.mangledName == name) = some root := by
    obtain ⟨node, hnode, hname⟩ := hname
    rw [← Option.isSome_iff_exists, Array.findIdx?_isSome, Array.any_eq_true']
    exact ⟨node, hnode, beq_iff_eq.2 hname⟩
  rw [graph_build_compute] at hk
  subst hk
  obtain ⟨hlt, -⟩ := Array.findIdx?_eq_some_iff_getElem.1 hroot
  have hnode := Array.getElem?_eq_getElem hlt
  have hlists := listsDescents_descents hindexed hlt
  refine ⟨root, _, _, hroot, hnode, hlists, ?_, ?_, ?_⟩
  · rw [renderTree?, hroot, Option.map_some, treeLines_eq_map_descents, List.map_map]
    rfl
  · rw [graphStack_compute hnode]
    exact isGreatest_sums hlists ⟨known_compute hindexed, hfit⟩ hlt
  · rw [Ne, recursion_eq_none_iff hindexed hu hnode]
    exact points_ne_nil_iff hlists (known_compute hindexed) hlt

/-- What resolving gives a function, with symbols looked up in the list of functions. -/
theorem resolveNode_eq_of_indexed (hg : g.Indexed) (report : StackReport) (i : Nat)
    (node : CallNode) :
    g.resolveNode report i node =
      { node with
        localStack := max node.localStack ((report[node.name]?.map (·.stack)).getD 0)
        callees := (node.calls.filterMap fun call => g.target? call.symbolNumber).foldl
          (addCallee i) []
        recursion := node.recursion.escalate
          (if node.calls.any fun call => g.target? call.symbolNumber == some i then .self
          else .none) } := by
  have hlookup (n : Nat) : g.bySymbol[n]? = g.target? n := hg n
  simp only [resolveNode, calleesOf_eq_foldl, targets, callsItself, hlookup]

def nestedLoopsNodes : List CallNode :=
  let call (symbolNumber : Nat) : Call := { name := "f", symbolNumber }
  [{ name := "f", mangledName := "a", symbolNumber := 1, localStack := 8, calls := [call 2] },
    { name := "f", mangledName := "b", symbolNumber := 2, localStack := 16, calls := [call 3] },
    { name := "g", mangledName := "c", symbolNumber := 3, localStack := 4
      calls := [call 1, call 2] }]

/-- Three functions that call one another in a row, the last of them both others. -/
def nestedLoops : CallGraph := nestedLoopsNodes.foldl addNode {}

theorem built_nestedLoops : Built nestedLoops := .added (.added (.added .empty _) _) _

theorem unclassified_nestedLoops : Unclassified nestedLoops := by
  refine Unclassified.addNode (.addNode (.addNode ?_ rfl) rfl) rfl
  exact fun _ hn => absurd hn (Array.not_mem_empty _)

def resolvedLoops : Array CallNode :=
  let call (symbolNumber : Nat) : Call := { name := "f", symbolNumber }
  #[{ name := "f", mangledName := "a", symbolNumber := 1, localStack := 8, calls := [call 2]
      callees := [1] },
    { name := "f", mangledName := "b", symbolNumber := 2, localStack := 16, calls := [call 3]
      callees := [2] },
    { name := "g", mangledName := "c", symbolNumber := 3, localStack := 4
      calls := [call 1, call 2], callees := [0, 1] }]

theorem nodes_compute_nestedLoops :
    (nestedLoops.compute ∅).1.nodes = withReports resolvedLoops := by
  have hresolved : nestedLoops.resolvedNodes ∅ = resolvedLoops := by
    unfold resolvedNodes
    simp only [resolveNode_eq_of_indexed built_nestedLoops.indexed]
    decide +kernel
  rw [← hresolved]
  rfl

/-- The steps that add the functions, with computations before, between and after them. -/
def nestedLoopsSteps : List BuildStep :=
  .compute :: nestedLoopsNodes.flatMap fun node => [.add node, .compute]

theorem stackOn_nestedLoops {p : List Nat} (hp : p.Nodup) :
    stackOn (nestedLoops.compute ∅).1.nodes p < 2 ^ 64 := by
  have hall : stackOn (withReports resolvedLoops)
      (List.range (withReports resolvedLoops).size) = 28 := by decide +kernel
  rw [nodes_compute_nestedLoops]
  exact Nat.lt_of_le_of_lt ((stackOn_le_range hp).trans_eq hall) (by decide)

theorem renderTree?_build_nestedLoops :
    let k := (nestedLoops.compute ∅).1
    Built {} ∧ Unclassified (withAdded {} nestedLoopsSteps) ∧
      (build ({}, ∅) (nestedLoopsSteps ++ [.compute])).1 = k ∧
      (∀ i p, SimplePath (HasCallee k.nodes) i p → stackOn k.nodes p < 2 ^ 64) ∧
      (∃ node ∈ k.nodes, node.mangledName = "a") ∧
      ∃ paths, ListsDescents k.nodes 0 paths ∧
        k.renderTree? "a" =
          some (String.join (paths.map fun p => treeLine k.nodes [] 0 p ++ "\n")) ∧
        IsGreatest {sum | ∃ p ∈ paths, SumsTo k.nodes p sum} 28 ∧
        ((∃ p ∈ paths, ¬ p.Nodup) ∨
          ∃ p ∈ paths, ∃ i, p.getLast? = some i ∧ MarkedSelf k.nodes i) := by
  intro k
  have hu : Unclassified (withAdded {} nestedLoopsSteps) := unclassified_nestedLoops
  have hk : (build ({}, ∅) (nestedLoopsSteps ++ [.compute])).1 = k := graph_build_compute ..
  have hfit (i : Nat) (p : List Nat) (hp : SimplePath (HasCallee k.nodes) i p) :
      stackOn k.nodes p < 2 ^ 64 := stackOn_nestedLoops hp.nodup
  have hnodes : k.nodes = withReports resolvedLoops := nodes_compute_nestedLoops
  have hname : ∃ node ∈ k.nodes, node.mangledName = "a" := by
    have hany : (withReports resolvedLoops).any (·.mangledName == "a") = true := by decide +kernel
    obtain ⟨node, hnode, hname⟩ := Array.any_eq_true'.1 hany
    exact ⟨node, hnodes ▸ hnode, beq_iff_eq.1 hname⟩
  obtain ⟨root, node, paths, hroot, hnode, hlists, htext, hgreatest, hclass⟩ :=
    renderTree?_build .empty hu hk hfit hname
  have hfirst : (withReports resolvedLoops).findIdx? (·.mangledName == "a") = some 0 := by
    decide +kernel
  have hfigures : (withReports resolvedLoops)[0]?.map
      (fun node => (node.graphStack, node.recursion)) = some (28, .loop) := by decide +kernel
  rw [hnodes, hfirst] at hroot
  cases hroot
  rw [hnodes] at hnode
  rw [hnode] at hfigures
  obtain ⟨hstack, hrecursion⟩ := Prod.mk.inj (Option.some.inj hfigures)
  rw [hstack] at hgreatest
  refine ⟨.empty, hu, hk, hfit, hname, paths, hlists, htext, hgreatest,
    hclass.1 ?_⟩
  rw [hrecursion]
  exact Recursion.noConfusion

/-- A simple path whose last function calls two functions on it has two marks below it. -/
theorem renderTree?_nestedLoops :
    (nestedLoops.compute ∅).1.renderTree? "a" =
        some ("f local=8 graph=28\n  f local=16 graph=28\n    g local=4 graph=28\n" ++
          "      f (STOP)\n      f (STOP)\n") ∧
      ∀ p i callee, SimplePath (HasCallee (nestedLoops.compute ∅).1.nodes) 0 p →
        p.getLast? = some i → HasCallee (nestedLoops.compute ∅).1.nodes i callee → callee ∈ p →
          p = [0, 1, 2] := by
  constructor
  · rw [renderTree?, nodes_compute_nestedLoops]
    decide +kernel
  · intro p i callee hp hlast hcallee hmet
    have hsize : 0 < (nestedLoops.compute ∅).1.nodes.size := by
      rw [size_nodes_compute]
      decide
    have hmem := (mem_descents (known_compute built_nestedLoops.indexed) hsize).2
      (Descent.back hp hlast hcallee hmet).passesOnce
    rw [nodes_compute_nestedLoops] at hmem
    have hends : ∀ q ∈ descents (withReports resolvedLoops) [] 0,
        (q.getLast?.any fun x => q.dropLast.contains x) = true → q.dropLast = [0, 1, 2] := by
      decide +kernel
    have hp := hends _ hmem
    rw [List.getLast?_concat, List.dropLast_concat] at hp
    exact hp (List.contains_iff_mem.2 hmet)

end StackSurvey.CallGraph
