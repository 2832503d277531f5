import StackSurvey.Proofs.CallGraph.Resolution
import StackSurvey.Proofs.CallGraph.SimplePath

namespace StackSurvey.CallGraph

open Relation

variable {nodes : Array CallNode} {path : List Nat} {index : Nat}

def MarkedSelf (nodes : Array CallNode) (i : Nat) : Prop :=
  ∃ node, nodes[i]? = some node ∧ node.recursion = .self

/-- Recursion is met only where calls lead, at functions that call themselves or come back to
themselves. -/
theorem recursive_of_mem_points {x : Nat} (hl : LeadsTo nodes path index)
    (hx : x ∈ (explore nodes path index).points) :
    ReflTransGen (HasCallee nodes) index x ∧
      (MarkedSelf nodes x ∨ TransGen (HasCallee nodes) x x) := by
  induction path, index using explore_induction nodes with
  | met path index hp =>
    rw [explore_of_mem hp, List.mem_singleton] at hx
    subst x
    exact ⟨.refl, .inr (hl index hp)⟩
  | unknown path index hp hi =>
    rw [explore_of_none hp hi] at hx
    cases hx
  | entered path index node hp hi ih =>
    rcases (mem_points_explore hp hi).1 hx with ⟨hself, rfl⟩ | ⟨callee, hc, hx⟩
    · exact ⟨.refl, .inl ⟨node, hi, hself⟩⟩
    · obtain ⟨hreach, hrec⟩ := ih callee (hl.callee hi hc) hx
      exact ⟨.head ⟨node, hi, hc⟩ hreach, hrec⟩

/-- A call from the end of a simple path back to the path, or to what it stays off, is met. -/
theorem mem_points_of_simplePath {p : List Nat} {j x : Nat}
    (hp : SimplePath (HasCallee nodes) index p) (hoff : p.Disjoint path)
    (hlast : p.getLast? = some j) (hback : HasCallee nodes j x) (hx : x ∈ path ∨ x ∈ p) :
    x ∈ (explore nodes path index).points := by
  induction p generalizing path index with
  | nil => cases hlast
  | cons k p ih =>
    obtain ⟨_, hcons, _, hrest⟩ := hp.eq_cons
    cases hcons
    obtain ⟨hk, hoff⟩ := List.disjoint_cons_left.1 hoff
    have hx : x ∈ k :: path ∨ x ∈ p := by
      simp only [List.mem_cons] at hx ⊢
      tauto
    rcases hrest with rfl | ⟨callee, hstep, hrest⟩
    · cases hlast
      obtain ⟨node, hi, hc⟩ := hback
      have hmet : x ∈ k :: path := hx.resolve_right List.not_mem_nil
      refine (mem_points_explore hk hi).2 (.inr ⟨x, hc, ?_⟩)
      rw [explore_of_mem hmet]
      exact List.mem_singleton_self x
    · obtain ⟨node, hi, hc⟩ := hstep
      refine (mem_points_explore hk hi).2 (.inr ⟨callee, hc, ?_⟩)
      have hoff : p.Disjoint (k :: path) :=
        List.disjoint_cons_right.2 ⟨(List.nodup_cons.1 hp.nodup).1, hoff⟩
      have hlast : p.getLast? = some j := by
        cases p with
        | nil => cases hrest.head
        | cons => simpa using hlast
      exact ih hrest hoff hlast hx

/-- A function takes part in recursion: it is marked as calling itself, or lies on a cycle. -/
def TakesPart (nodes : Array CallNode) (i : Nat) : Prop :=
  MarkedSelf nodes i ∨ OnCycle (HasCallee nodes) i

section

variable (hirrefl : ∀ a, ¬ HasCallee nodes a a) {i : Nat}

include hirrefl

/-- The functions that take part in recursion are those at which it is met. -/
theorem mem_recursionPoints : i ∈ recursionPoints nodes ↔ TakesPart nodes i := by
  rw [recursionPoints, List.mem_flatMap]
  constructor
  · rintro ⟨root, _, hx⟩
    obtain ⟨_, hself | hcycle⟩ := recursive_of_mem_points (fun _ h => by cases h) hx
    · exact .inl hself
    · exact .inr ((onCycle_iff_transGen hirrefl).2 hcycle)
  · rintro (⟨node, hi, hself⟩ | ⟨p, j, hp, _, hlast, hback⟩)
    · refine ⟨i, List.mem_range.2 (Array.getElem?_eq_some_iff.1 hi).1, ?_⟩
      exact (mem_points_explore List.not_mem_nil hi).2 (.inl ⟨hself, rfl⟩)
    · have hmem : i ∈ p := List.mem_of_head? hp.head
      have hmet : i ∈ (explore nodes [] i).points :=
        mem_points_of_simplePath hp (List.disjoint_nil_right p) hlast hback (.inr hmem)
      obtain ⟨k, ⟨node, hi, _⟩, _⟩ := TransGen.head'_iff.1
        ((onCycle_iff_transGen hirrefl).1 ⟨p, j, hp, ‹_›, hlast, hback⟩)
      exact ⟨i, List.mem_range.2 (Array.getElem?_eq_some_iff.1 hi).1, hmet⟩

/-- A search meets recursion exactly if calls lead to a function that takes part in it. -/
theorem points_eq_nil_iff : (explore nodes [] i).points = [] ↔
    ¬ ∃ j, ReflTransGen (HasCallee nodes) i j ∧ TakesPart nodes j := by
  constructor
  · rintro h ⟨j, hreach, ⟨node, hj, hself⟩ | hcycle⟩
    · exact recursion_ne_self h hreach hj hself
    · exact not_transGen_self h hreach ((onCycle_iff_transGen hirrefl).1 hcycle)
  · intro h
    rw [List.eq_nil_iff_forall_not_mem]
    intro x hx
    obtain ⟨hreach, hself | hcycle⟩ := recursive_of_mem_points (fun _ h => by cases h) hx
    · exact h ⟨x, hreach, .inl hself⟩
    · exact h ⟨x, hreach, .inr ((onCycle_iff_transGen hirrefl).2 hcycle)⟩

end

variable {g : CallGraph} {report : StackReport} {i : Nat}

/-- No function of the graph has a recursion class yet. -/
def Unclassified (g : CallGraph) : Prop := ∀ node ∈ g.nodes, node.recursion = .none

theorem Unclassified.addNode (h : Unclassified g) {node : CallNode} (hn : node.recursion = .none) :
    Unclassified (g.addNode node) := by
  intro other ho
  rcases Array.mem_push.1 ho with ho | rfl
  · exact h other ho
  · exact hn

/-- Dumps say nothing of recursion. -/
theorem unclassified_parse {text : String} (h : parse text = .ok g) : Unclassified g :=
  forall_mem_of_parse (fun _ _ _ _ => rfl) (fun _ _ hn => hn) (fun _ _ hn => hn) h

theorem rank_exploredNode (node : CallNode) :
    (exploredNode nodes i node).recursion.rank =
      max (max node.recursion.rank (if (explore nodes [] i).points.isEmpty then 0 else 1))
        (if i ∈ recursionPoints nodes then 2 else 0) := by
  have hreached : (withReport node (explore nodes [] i)).recursion.rank =
      max node.recursion.rank (if (explore nodes [] i).points.isEmpty then 0 else 1) := by
    rw [withReport, Recursion.rank_escalate]
    split <;> rfl
  unfold exploredNode
  split
  · rw [withLoop, Recursion.rank_escalate, hreached]
    rfl
  · rw [hreached, Nat.max_zero]

theorem hasCallee_resolvedNodes_eq (hg : g.Indexed) :
    HasCallee (g.resolvedNodes report) = g.CallsTo :=
  funext₂ fun _ _ => propext (hasCallee_resolvedNodes hg)

theorem recursion_resolveNode (report : StackReport) (hg : g.Indexed) (hu : Unclassified g)
    {node : CallNode} (hi : g.nodes[i]? = some node) :
    (g.resolveNode report i node).recursion = if g.CallsItself i then .self else .none := by
  rw [resolveNode, hu node (Array.mem_of_getElem? hi)]
  simp only [callsItself_iff hg hi]
  split <;> rfl

theorem markedSelf_resolvedNodes (hg : g.Indexed) (hu : Unclassified g) :
    MarkedSelf (g.resolvedNodes report) i ↔ g.CallsItself i := by
  unfold MarkedSelf
  rw [getElem?_resolvedNodes]
  cases hi : g.nodes[i]? with
  | none => simp [CallsItself, hi]
  | some node => simp [recursion_resolveNode report hg hu hi]

/-- A function is recursive: it calls itself, or lies on a cycle of calls. -/
def Recursive (g : CallGraph) (i : Nat) : Prop := g.CallsItself i ∨ OnCycle g.CallsTo i

theorem takesPart_resolvedNodes (hg : g.Indexed) (hu : Unclassified g) :
    TakesPart (g.resolvedNodes report) i ↔ g.Recursive i := by
  rw [TakesPart, Recursive, markedSelf_resolvedNodes hg hu, hasCallee_resolvedNodes_eq hg]

open Classical in
/-- The rank of a class is the greatest of what a call to itself, a cycle, and recursion further
down each give. -/
theorem rank_compute (report : StackReport) (hg : g.Indexed) (hu : Unclassified g) {node : CallNode}
    (hi : g.nodes[i]? = some node) :
    (exploredNode (g.resolvedNodes report) i (g.resolveNode report i node)).recursion.rank =
      max (max (if g.CallsItself i then 3 else 0)
        (if ∃ j, ReflTransGen g.CallsTo i j ∧ g.Recursive j then 1 else 0))
        (if g.Recursive i then 2 else 0) := by
  have hirrefl : ∀ a, ¬ HasCallee (g.resolvedNodes report) a a :=
    fun a h => ((hasCallee_resolvedNodes hg).1 h).1 rfl
  have hself : (g.resolveNode report i node).recursion.rank =
      if g.CallsItself i then 3 else 0 := by
    rw [recursion_resolveNode report hg hu hi]
    split <;> rfl
  have hpoints := points_eq_nil_iff hirrefl (i := i)
  have hmet := mem_recursionPoints hirrefl (i := i)
  simp only [takesPart_resolvedNodes hg hu, hasCallee_resolvedNodes_eq hg] at hpoints hmet
  rw [rank_exploredNode, hself]
  simp only [List.isEmpty_iff, hpoints, hmet, ite_not]

/-- After a computation on a graph without recursion classes, as dumps give it, the class of each
function is what its calls make it. -/
theorem recursion_compute :
    (∀ text g, parse text = .ok g → Unclassified g) ∧
      ∀ g, Built g → Unclassified g → ∀ report i, i < g.nodes.size →
        ∃ node, (g.compute report).1.nodes[i]? = some node ∧
          (node.recursion = .self ↔ g.CallsItself i) ∧
          (node.recursion = .loop ↔ ¬ g.CallsItself i ∧ OnCycle g.CallsTo i) ∧
          (node.recursion = .reaches ↔ ¬ g.CallsItself i ∧ ¬ OnCycle g.CallsTo i ∧
            ∃ j, ReflTransGen g.CallsTo i j ∧ g.Recursive j) ∧
          (node.recursion = .none ↔ ¬ ∃ j, ReflTransGen g.CallsTo i j ∧ g.Recursive j) := by
  refine ⟨fun _ _ => unclassified_parse, fun g hg hu report i hi => ?_⟩
  have hnode := getElem?_nodes_compute g report i
  rw [Array.getElem?_eq_getElem hi, Option.map_some] at hnode
  refine ⟨_, hnode, ?_⟩
  have hrank := rank_compute report hg.indexed hu (Array.getElem?_eq_getElem hi)
  have hown (h : g.Recursive i) : ∃ j, ReflTransGen g.CallsTo i j ∧ g.Recursive j := ⟨i, .refl, h⟩
  have hclass (c d : Recursion) : c = d ↔ c.rank = d.rank :=
    ⟨congrArg Recursion.rank, Recursion.rank_injective⟩
  simp only [hclass, hrank]
  simp only [Recursion.rank]
  by_cases hs : g.CallsItself i
  · have hrec : g.Recursive i := .inl hs
    simp [hs, hrec, hown hrec]
  · by_cases hc : OnCycle g.CallsTo i
    · have hrec : g.Recursive i := .inr hc
      simp [hs, hc, hrec, hown hrec]
    · have hrec : ¬ g.Recursive i := fun h => h.elim hs hc
      by_cases hr : ∃ j, ReflTransGen g.CallsTo i j ∧ g.Recursive j
      · simp [hs, hc, hrec, hr]
      · simp [hs, hc, hrec, hr]

/-- Functions that call each other, one of them itself, and one that calls these. -/
def nestedRecursion : CallGraph :=
  let call (symbolNumber : Nat) : Call := { name := "f", symbolNumber }
  ((({} : CallGraph).addNode { symbolNumber := 1, calls := [call 2] }).addNode
    { symbolNumber := 2, calls := [call 3, call 7] }).addNode
    { symbolNumber := 3, calls := [call 2, call 3] }

theorem built_nestedRecursion : Built nestedRecursion := .added (.added (.added .empty _) _) _

theorem unclassified_nestedRecursion : Unclassified nestedRecursion := by
  refine Unclassified.addNode (.addNode (.addNode ?_ rfl) rfl) rfl
  exact fun _ hn => absurd hn (Array.not_mem_empty _)

theorem recursion_compute_nestedRecursion :
    Built nestedRecursion ∧ Unclassified nestedRecursion ∧ 0 < nestedRecursion.nodes.size ∧
      ∃ node, (nestedRecursion.compute ∅).1.nodes[0]? = some node ∧ node.recursion = .reaches := by
  have hsize : 0 < nestedRecursion.nodes.size := by decide +kernel
  refine ⟨built_nestedRecursion, unclassified_nestedRecursion, hsize, ?_⟩
  obtain ⟨node, hnode, _, _, hreaches, _⟩ :=
    recursion_compute.2 _ built_nestedRecursion unclassified_nestedRecursion ∅ 0 hsize
  have hcycle : ¬ OnCycle nestedRecursion.CallsTo 0 := by
    rintro ⟨_, j, _, _, _, hback⟩
    have huncalled : ∀ j < 3, ¬ nestedRecursion.CallsTo j 0 := by decide +kernel
    exact huncalled j (lt_of_callsTo hback).1 hback
  refine ⟨node, hnode, hreaches.2 ⟨by decide +kernel, hcycle, 2, ?_, .inl (by decide +kernel)⟩⟩
  exact .head (b := 1) (by decide +kernel) (.single (by decide +kernel))

end StackSurvey.CallGraph
