import Mathlib.Algebra.GroupWithZero.Nat
import Mathlib.Algebra.Order.BigOperators.Group.Finset
import Mathlib.Order.Bounds.Defs
import StackSurvey.Proofs.CallGraph.Resolution
import StackSurvey.Proofs.CallGraph.SimplePath

namespace StackSurvey.CallGraph

/-- The stack of the functions on a path. -/
def stackOn (nodes : Array CallNode) (p : List Nat) : Nat :=
  (p.map fun i => (nodes[i]?).elim 0 (·.localStack)).sum

def chainOn (nodes : Array CallNode) (p : List Nat) : Chain :=
  { stack := stackOn nodes p, frames := p.length }

namespace Chain

/-- A chain is no worse than another: its stack is smaller, or the same on no more functions. -/
def Le (a b : Chain) : Prop := a.stack < b.stack ∨ a.stack = b.stack ∧ a.frames ≤ b.frames

theorem Le.refl (a : Chain) : a.Le a := .inr ⟨rfl, Nat.le_refl _⟩

theorem Le.trans {a b c : Chain} (hab : a.Le b) (hbc : b.Le c) : a.Le c := by
  unfold Le at *
  omega

theorem empty_le (a : Chain) : ({} : Chain).Le a := by
  unfold Le
  dsimp only
  omega

theorem le_worse_left (a b : Chain) : a.Le (a.worse b) := by
  unfold worse Le
  split <;> omega

theorem le_worse_right (a b : Chain) : b.Le (a.worse b) := by
  unfold worse Le
  split <;> omega

theorem worse_eq_or (a b : Chain) : a.worse b = a ∨ a.worse b = b := by
  unfold worse
  split
  · exact .inr rfl
  · exact .inl rfl

end Chain

namespace BranchReport

variable {r : BranchReport} {callees : List Nat} {report : Nat → BranchReport}

theorem joinAll_cons (callee : Nat) :
    r.joinAll (callee :: callees) report = (r.join (report callee)).joinAll callees report := rfl

theorem le_chain_joinAll : r.chain.Le (r.joinAll callees report).chain := by
  induction callees generalizing r with
  | nil => exact .refl _
  | cons callee callees ih =>
    have hjoin : r.chain.Le (r.join (report callee)).chain := Chain.le_worse_left ..
    exact hjoin.trans ih

theorem chain_le_joinAll {callee : Nat} (h : callee ∈ callees) :
    (report callee).chain.Le (r.joinAll callees report).chain := by
  induction callees generalizing r with
  | nil => cases h
  | cons other callees ih =>
    rw [joinAll_cons]
    rcases List.mem_cons.1 h with rfl | h
    · have hjoin : (report callee).chain.Le (r.join (report callee)).chain :=
        Chain.le_worse_right ..
      exact hjoin.trans le_chain_joinAll
    · exact ih h

theorem chain_joinAll_eq (r : BranchReport) (callees : List Nat) (report : Nat → BranchReport) :
    (r.joinAll callees report).chain = r.chain ∨
      ∃ callee ∈ callees, (r.joinAll callees report).chain = (report callee).chain := by
  induction callees generalizing r with
  | nil => exact .inl rfl
  | cons callee callees ih =>
    rw [joinAll_cons]
    rcases ih (r.join (report callee)) with h | ⟨other, ho, h⟩
    · rw [h]
      rcases Chain.worse_eq_or r.chain (report callee).chain with hw | hw
      · exact .inl hw
      · exact .inr ⟨callee, List.mem_cons_self .., hw⟩
    · exact .inr ⟨other, List.mem_cons_of_mem _ ho, h⟩

end BranchReport

variable {nodes : Array CallNode} {path : List Nat} {index : Nat}

/-- A chain is the worst of the simple paths from a function on that stay off a path. -/
structure Worst (nodes : Array CallNode) (path : List Nat) (index : Nat) (c : Chain) : Prop where
  attained : ∃ p, SimplePath (HasCallee nodes) index p ∧ p.Disjoint path ∧ c = chainOn nodes p
  bound : ∀ p, SimplePath (HasCallee nodes) index p → p.Disjoint path → (chainOn nodes p).Le c

theorem stackOn_cons {node : CallNode} (hi : nodes[index]? = some node) (p : List Nat) :
    stackOn nodes (index :: p) = node.localStack + stackOn nodes p := by
  rw [stackOn, List.map_cons, List.sum_cons, hi]
  rfl

/-- Functions whose callees are known and whose stacks fit a word on every simple path of calls. -/
structure Measurable (nodes : Array CallNode) : Prop where
  known : ∀ a b, HasCallee nodes a b → b < nodes.size
  fits : ∀ i p, SimplePath (HasCallee nodes) i p → stackOn nodes p < 2 ^ 64

/-- The worst chain below a function goes on from it as a simple path that stays off a path. -/
theorem exists_path_joinAll {node : CallNode} (hn : Measurable nodes) (hp : index ∉ path)
    (hi : nodes[index]? = some node)
    (ih : ∀ callee, callee ∉ index :: path → callee < nodes.size →
      Worst nodes (index :: path) callee (explore nodes (index :: path) callee).chain) :
    let below := (BranchReport.start index node).joinAll node.callees
      (explore nodes (index :: path))
    ∃ p, SimplePath (HasCallee nodes) index p ∧ p.Disjoint path ∧
      node.localStack + below.chain.stack = stackOn nodes p ∧
      below.chain.frames + 1 = p.length := by
  intro below
  have hempty (h : below.chain = {}) : ∃ p, SimplePath (HasCallee nodes) index p ∧
      p.Disjoint path ∧ node.localStack + below.chain.stack = stackOn nodes p ∧
      below.chain.frames + 1 = p.length := by
    refine ⟨[index], .singleton index, by simpa using hp, ?_, ?_⟩ <;> rw [h]
    · exact (stackOn_cons hi []).symm
    · rfl
  rcases BranchReport.chain_joinAll_eq (.start index node) node.callees
    (explore nodes (index :: path)) with h | ⟨callee, hc, h⟩
  · exact hempty h
  · have hstep : HasCallee nodes index callee := ⟨node, hi, hc⟩
    by_cases hmem : callee ∈ index :: path
    · rw [explore_of_mem hmem] at h
      exact hempty h
    · obtain ⟨p, hpath, hoff, hchain⟩ := (ih callee hmem (hn.known _ _ hstep)).attained
      have hindex : index ∉ p := fun hx => hoff hx (List.mem_cons_self ..)
      rw [hchain] at h
      refine ⟨index :: p, hpath.cons hstep hindex, ?_, ?_, ?_⟩
      · rw [List.disjoint_cons_left]
        exact ⟨hp, fun x hx hx' => hoff hx (List.mem_cons_of_mem _ hx')⟩
      · rw [h, stackOn_cons hi]
        rfl
      · rw [h]
        rfl

/-- What follows a function on a simple path that stays off a path is no worse than the worst
chain below it. -/
theorem chainOn_le_joinAll {node : CallNode} {q : List Nat} (hn : Measurable nodes)
    (hi : nodes[index]? = some node)
    (ih : ∀ callee, callee ∉ index :: path → callee < nodes.size →
      Worst nodes (index :: path) callee (explore nodes (index :: path) callee).chain)
    (hq : SimplePath (HasCallee nodes) index (index :: q)) (hoff : q.Disjoint path) :
    (chainOn nodes q).Le ((BranchReport.start index node).joinAll node.callees
      (explore nodes (index :: path))).chain := by
  obtain ⟨_, hcons, hindex, hrest⟩ := hq.eq_cons
  cases hcons
  rcases hrest with rfl | ⟨callee, ⟨node', hi', hc⟩, hrest⟩
  · exact Chain.empty_le _
  · rw [hi] at hi'
    cases hi'
    have hoff' : q.Disjoint (index :: path) := List.disjoint_cons_right.2 ⟨hindex, hoff⟩
    have hworst := ih callee (hoff' (List.mem_of_head? hrest.head)) (hn.known _ _ ⟨node, hi, hc⟩)
    exact (hworst.bound q hrest hoff').trans (BranchReport.chain_le_joinAll hc)

/-- Exploring a function below a path finds the worst of the simple paths that stay off it. -/
theorem worst_explore (hn : Measurable nodes) (hp : index ∉ path) (hi : index < nodes.size) :
    Worst nodes path index (explore nodes path index).chain := by
  induction path, index using explore_induction nodes with
  | met path index hmem => exact absurd hmem hp
  | unknown path index _ hnone =>
    rw [Array.getElem?_eq_getElem hi] at hnone
    cases hnone
  | entered path index node _ hnode ih =>
    rw [explore_of_getElem? hp hnode]
    obtain ⟨p, hpath, hoff, hstack, hframes⟩ := exists_path_joinAll hn hp hnode ih
    have hword : stackOn nodes p % 1 <<< 64 = stackOn nodes p :=
      Nat.mod_eq_of_lt (hn.fits index p hpath)
    rw [← hstack] at hword
    constructor
    · refine ⟨p, hpath, hoff, ?_⟩
      rw [BranchReport.finish, Chain.after, chainOn, hword, hstack, hframes]
    · intro q hq hoff
      obtain ⟨q, rfl, _, _⟩ := hq.eq_cons
      have hle := chainOn_le_joinAll hn hnode ih hq (List.disjoint_cons_left.1 hoff).2
      unfold Chain.Le BranchReport.finish Chain.after at *
      simp only [chainOn, stackOn_cons hnode, List.length_cons, hword] at *
      omega

variable {g : CallGraph} {report : StackReport} {i : Nat} {p : List Nat}

theorem stackOn_compute :
    stackOn (g.compute report).1.nodes p = stackOn (g.resolvedNodes report) p := by
  unfold stackOn
  congr 2
  funext i
  rw [getElem?_nodes_compute, getElem?_resolvedNodes]
  cases g.nodes[i]? with
  | none => rfl
  | some node => exact localStack_exploredNode ..

theorem Indexed.measurable (h : g.Indexed)
    (hfit : ∀ p : List Nat, p.Nodup → stackOn (g.compute report).1.nodes p < 2 ^ 64) :
    Measurable (g.resolvedNodes report) := by
  refine ⟨fun a b hab => ?_, fun _ p hp => stackOn_compute ▸ hfit p hp.nodup⟩
  rw [hasCallee_resolvedNodes h] at hab
  rw [resolvedNodes, Array.size_mapIdx]
  exact (lt_of_callsTo hab).2

/-- After a computation, the stack of each function is the greatest of the simple paths of calls
that begin at it, provided that no stack of distinct functions leaves 64 bits, and its depth is the
number of calls on the longest of the paths that attain this. -/
theorem isGreatest_graphStack_compute (hg : Built g)
    (hfit : ∀ p : List Nat, p.Nodup → stackOn (g.compute report).1.nodes p < 2 ^ 64)
    (hi : i < g.nodes.size) :
    ∃ node, (g.compute report).1.nodes[i]? = some node ∧
      IsGreatest
        {stack | ∃ p, SimplePath g.CallsTo i p ∧ stackOn (g.compute report).1.nodes p = stack}
        node.graphStack ∧
      IsGreatest
        {calls | ∃ p, SimplePath g.CallsTo i p ∧
          stackOn (g.compute report).1.nodes p = node.graphStack ∧ p.length = calls + 1}
        node.depth := by
  have hcalls (a b : Nat) : HasCallee (g.resolvedNodes report) a b ↔ g.CallsTo a b :=
    hasCallee_resolvedNodes hg.indexed
  have hnode := getElem?_nodes_compute g report i
  rw [Array.getElem?_eq_getElem hi, Option.map_some] at hnode
  refine ⟨_, hnode, ?_⟩
  obtain ⟨hgraph, hdepth⟩ := chain_exploredNode (g.resolvedNodes report) i
    (g.resolveNode report i g.nodes[i])
  have hlt : i < (g.resolvedNodes report).size := by rwa [resolvedNodes, Array.size_mapIdx]
  obtain ⟨⟨p, hp, _, hchain⟩, hbound⟩ :=
    worst_explore (hg.indexed.measurable hfit) List.not_mem_nil hlt
  have hlength : 0 < p.length := List.length_pos_of_mem (List.mem_of_head? hp.head)
  rw [hchain] at hgraph hdepth hbound
  simp only [stackOn_compute, hgraph, hdepth]
  refine ⟨⟨⟨p, (SimplePath.congr hcalls).1 hp, rfl⟩, ?_⟩,
    ⟨⟨p, (SimplePath.congr hcalls).1 hp, rfl, ?_⟩, ?_⟩⟩
  · rintro _ ⟨q, hq, rfl⟩
    have hle := hbound q ((SimplePath.congr hcalls).2 hq) (List.disjoint_nil_right q)
    unfold Chain.Le at hle
    dsimp only [chainOn] at hle ⊢
    omega
  · exact (Nat.sub_add_cancel hlength).symm
  · rintro calls ⟨q, hq, hstack, hcount⟩
    have hle := hbound q ((SimplePath.congr hcalls).2 hq) (List.disjoint_nil_right q)
    unfold Chain.Le at hle
    dsimp only [chainOn] at hle hstack ⊢
    omega

/-- No stack of distinct functions is greater than that of all of them. -/
theorem stackOn_le_range (hp : p.Nodup) :
    stackOn nodes p ≤ stackOn nodes (List.range nodes.size) := by
  rw [stackOn, stackOn, ← List.sum_toFinset _ hp, ← List.sum_toFinset _ List.nodup_range]
  refine Finset.sum_le_sum_of_ne_zero fun i _ hi => ?_
  rw [List.mem_toFinset, List.mem_range]
  by_contra hlt
  rw [Array.getElem?_eq_none (Nat.le_of_not_lt hlt)] at hi
  exact hi rfl

/-- Two functions that call each other, and one that calls both. -/
def sharedLoop : CallGraph :=
  let call (symbolNumber : Nat) : Call := { name := "f", symbolNumber }
  ((({} : CallGraph).addNode
    { symbolNumber := 1, localStack := 8, calls := [call 2, call 3] }).addNode
    { symbolNumber := 2, localStack := 16, calls := [call 3] }).addNode
    { symbolNumber := 3, localStack := 4, calls := [call 2, call 7] }

theorem built_sharedLoop : Built sharedLoop := .added (.added (.added .empty _) _) _

theorem stackOn_sharedLoop (hp : p.Nodup) :
    stackOn (sharedLoop.compute ∅).1.nodes p < 2 ^ 64 := by
  rw [stackOn_compute]
  have hall : stackOn (sharedLoop.resolvedNodes ∅) (List.range 3) = 28 := by decide +kernel
  exact Nat.lt_of_le_of_lt ((stackOn_le_range hp).trans_eq hall) (by decide)

theorem isGreatest_graphStack_sharedLoop :
    Built sharedLoop ∧
      (∀ p : List Nat, p.Nodup → stackOn (sharedLoop.compute ∅).1.nodes p < 2 ^ 64) ∧
      0 < sharedLoop.nodes.size ∧
      ∃ node, (sharedLoop.compute ∅).1.nodes[0]? = some node ∧
        IsGreatest
          {stack | ∃ p, SimplePath sharedLoop.CallsTo 0 p ∧
            stackOn (sharedLoop.compute ∅).1.nodes p = stack}
          node.graphStack ∧
        IsGreatest
          {calls | ∃ p, SimplePath sharedLoop.CallsTo 0 p ∧
            stackOn (sharedLoop.compute ∅).1.nodes p = node.graphStack ∧ p.length = calls + 1}
          node.depth :=
  ⟨built_sharedLoop, fun _ => stackOn_sharedLoop, by decide,
    isGreatest_graphStack_compute built_sharedLoop (fun _ => stackOn_sharedLoop) (by decide)⟩

end StackSurvey.CallGraph
