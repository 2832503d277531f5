import StackSurvey.Proofs.CallGraph.RecursionClass

namespace StackSurvey.CallGraph

open Relation

variable {nodes : Array CallNode} {path : List Nat} {index : Nat} {p : List Nat}

/-- The ways down from a function along callees. A way ends where it comes back to a function that
it passed, or to one on the path above. -/
def descents (nodes : Array CallNode) (path : List Nat) (index : Nat) : List (List Nat) :=
  if hi : index < nodes.size then
    if hp : path.contains index then
      [[index]]
    else
      [index] :: nodes[index].callees.flatMap fun callee =>
        (descents nodes (index :: path) callee).map (index :: ·)
  else
    []
termination_by offPath nodes.size path
decreasing_by exact offPath_cons hi (by simpa using hp)

theorem descents_of_none (hi : nodes[index]? = none) : descents nodes path index = [] := by
  rw [descents, dif_neg (by simpa using hi)]

theorem descents_of_mem {node : CallNode} (hp : index ∈ path) (hi : nodes[index]? = some node) :
    descents nodes path index = [[index]] := by
  obtain ⟨hlt, -⟩ := Array.getElem?_eq_some_iff.1 hi
  rw [descents, dif_pos hlt, dif_pos (List.contains_iff_mem.2 hp)]

theorem descents_of_getElem? {node : CallNode} (hp : index ∉ path)
    (hi : nodes[index]? = some node) :
    descents nodes path index =
      [index] :: node.callees.flatMap fun callee =>
        (descents nodes (index :: path) callee).map (index :: ·) := by
  obtain ⟨hlt, rfl⟩ := Array.getElem?_eq_some_iff.1 hi
  rw [descents, dif_pos hlt, dif_neg (by simpa using hp)]

theorem treeLines_of_none {indent : Nat} (hi : nodes[index]? = none) :
    treeLines nodes path indent index = [] := by
  rw [treeLines, dif_neg (by simpa using hi)]

theorem treeLines_of_mem {indent : Nat} {node : CallNode} (hp : index ∈ path)
    (hi : nodes[index]? = some node) :
    treeLines nodes path indent index = [indented indent s!"{node.name} (STOP)"] := by
  obtain ⟨hlt, rfl⟩ := Array.getElem?_eq_some_iff.1 hi
  rw [treeLines, dif_pos hlt]
  dsimp only
  rw [dif_pos (List.contains_iff_mem.2 hp)]

theorem treeLines_of_getElem? {indent : Nat} {node : CallNode} (hp : index ∉ path)
    (hi : nodes[index]? = some node) :
    treeLines nodes path indent index =
      indented indent s!"{node.name} local={node.localStack} graph={node.graphStack}" ::
        node.callees.flatMap (treeLines nodes (index :: path) (indent + 2)) := by
  obtain ⟨hlt, rfl⟩ := Array.getElem?_eq_some_iff.1 hi
  rw [treeLines, dif_pos hlt]
  dsimp only
  rw [dif_neg (by simpa using hp)]

/-- A way down starts at its function. -/
theorem exists_cons_of_mem_descents (h : p ∈ descents nodes path index) :
    ∃ q, p = index :: q := by
  cases hi : nodes[index]? with
  | none =>
    rw [descents_of_none hi] at h
    cases h
  | some node =>
    by_cases hp : index ∈ path
    · rw [descents_of_mem hp hi, List.mem_singleton] at h
      exact ⟨[], h⟩
    · rw [descents_of_getElem? hp hi, List.mem_cons, List.mem_flatMap] at h
      rcases h with rfl | ⟨callee, -, h⟩
      · exact ⟨[], rfl⟩
      · obtain ⟨q, -, rfl⟩ := List.mem_map.1 h
        exact ⟨q, rfl⟩

/-- The line for a way down: what is known of its last function, or a mark if the way or the path
above has passed that before. -/
def treeLine (nodes : Array CallNode) (path : List Nat) (indent : Nat) (p : List Nat) : String :=
  (p.getLast?.bind fun i => nodes[i]?.map fun node =>
    indented (indent + 2 * (p.length - 1))
      (if i ∈ path ++ p.dropLast then s!"{node.name} (STOP)"
      else s!"{node.name} local={node.localStack} graph={node.graphStack}")).getD ""

/-- A function that a way begins with may as well be on the path above the rest of it. -/
theorem treeLine_cons (indent callee : Nat) (q : List Nat) :
    treeLine nodes path indent (index :: callee :: q) =
      treeLine nodes (index :: path) (indent + 2) (callee :: q) := by
  have hindent : indent + 2 * ((index :: callee :: q).length - 1) =
      indent + 2 + 2 * ((callee :: q).length - 1) := by
    simp only [List.length_cons]
    omega
  have hmem (i : Nat) : i ∈ path ++ (index :: callee :: q).dropLast ↔
      i ∈ index :: path ++ (callee :: q).dropLast := by
    simp only [List.dropLast_cons_cons, List.mem_append, List.mem_cons]
    tauto
  simp only [treeLine, List.getLast?_cons_cons, hindent, hmem]

theorem treeLine_singleton {indent : Nat} {node : CallNode} (hi : nodes[index]? = some node) :
    treeLine nodes path indent [index] =
      indented indent
        (if index ∈ path then s!"{node.name} (STOP)"
        else s!"{node.name} local={node.localStack} graph={node.graphStack}") := by
  simp [treeLine, hi]

/-- The lines of a call tree are those of the ways down. -/
theorem treeLines_eq_map_descents (indent : Nat) :
    treeLines nodes path indent index =
      (descents nodes path index).map (treeLine nodes path indent) := by
  induction path, index using explore_induction nodes generalizing indent with
  | met path index hp =>
    cases hi : nodes[index]? with
    | none => rw [treeLines_of_none hi, descents_of_none hi, List.map_nil]
    | some node =>
      rw [treeLines_of_mem hp hi, descents_of_mem hp hi, List.map_singleton,
        treeLine_singleton hi, if_pos hp]
  | unknown path index hp hi =>
    rw [treeLines_of_none hi, descents_of_none hi, List.map_nil]
  | entered path index node hp hi ih =>
    rw [treeLines_of_getElem? hp hi, descents_of_getElem? hp hi, List.map_cons,
      treeLine_singleton hi, if_neg hp, List.map_flatMap]
    congr 1
    refine List.flatMap_congr fun callee _ => ?_
    rw [ih callee, List.map_map]
    refine List.map_congr_left fun q hq => ?_
    obtain ⟨q, rfl⟩ := exists_cons_of_mem_descents hq
    exact (treeLine_cons ..).symm

/-- A way along callees that passes no function before its end twice, and none of a path there. -/
structure PassesOnce (nodes : Array CallNode) (path : List Nat) (index : Nat) (p : List Nat) :
    Prop where
  head : p.head? = some index
  chain : p.IsChain (HasCallee nodes)
  nodup : p.dropLast.Nodup
  disjoint : p.dropLast.Disjoint path

theorem passesOnce_iff :
    PassesOnce nodes path index p ↔ p = [index] ∨ index ∉ path ∧
      ∃ callee, HasCallee nodes index callee ∧
        ∃ q, PassesOnce nodes (index :: path) callee q ∧ index :: q = p := by
  constructor
  · rintro ⟨hhead, hchain, hnodup, hdisjoint⟩
    obtain ⟨p, rfl⟩ := List.head?_eq_some_iff.1 hhead
    cases p with
    | nil => exact .inl rfl
    | cons callee q =>
      rw [List.dropLast_cons_cons] at hnodup hdisjoint
      obtain ⟨hstep, hchain⟩ := List.isChain_cons_cons.1 hchain
      obtain ⟨hindex, hnodup⟩ := List.nodup_cons.1 hnodup
      obtain ⟨hoff, hdisjoint⟩ := List.disjoint_cons_left.1 hdisjoint
      exact .inr ⟨hoff, callee, hstep, callee :: q,
        ⟨rfl, hchain, hnodup, List.disjoint_cons_right.2 ⟨hindex, hdisjoint⟩⟩, rfl⟩
  · rintro (rfl | ⟨hoff, callee, hstep, q, ⟨hhead, hchain, hnodup, hdisjoint⟩, rfl⟩)
    · exact ⟨rfl, .singleton _, List.nodup_nil, List.disjoint_nil_left _⟩
    · obtain ⟨q, rfl⟩ := List.head?_eq_some_iff.1 hhead
      obtain ⟨hindex, hdisjoint⟩ := List.disjoint_cons_right.1 hdisjoint
      refine ⟨rfl, List.isChain_cons_cons.2 ⟨hstep, hchain⟩, ?_, ?_⟩
      · rw [List.dropLast_cons_cons]
        exact List.nodup_cons.2 ⟨hindex, hnodup⟩
      · rw [List.dropLast_cons_cons]
        exact List.disjoint_cons_left.2 ⟨hoff, hdisjoint⟩

/-- The ways down are those that pass no function twice before their end. -/
theorem mem_descents (hknown : ∀ a b, HasCallee nodes a b → b < nodes.size)
    (hi : index < nodes.size) : p ∈ descents nodes path index ↔ PassesOnce nodes path index p := by
  induction path, index using explore_induction nodes generalizing p with
  | met path index hp =>
    rw [descents_of_mem hp (Array.getElem?_eq_getElem hi), List.mem_singleton, passesOnce_iff]
    exact ⟨.inl, fun h => h.resolve_right fun h => h.1 hp⟩
  | unknown path index hp hnone =>
    rw [Array.getElem?_eq_getElem hi] at hnone
    cases hnone
  | entered path index node hp hnode ih =>
    rw [descents_of_getElem? hp hnode, List.mem_cons, List.mem_flatMap, passesOnce_iff]
    refine or_congr_right ?_
    simp only [List.mem_map]
    constructor
    · rintro ⟨callee, hcallee, q, hq, rfl⟩
      have hstep : HasCallee nodes index callee := ⟨node, hnode, hcallee⟩
      exact ⟨hp, callee, hstep, q, (ih callee (hknown _ _ hstep)).1 hq, rfl⟩
    · rintro ⟨-, callee, hstep, q, hq, rfl⟩
      obtain ⟨_, hnode', hcallee⟩ := id hstep
      rw [hnode] at hnode'
      cases hnode'
      exact ⟨callee, hcallee, q, (ih callee (hknown _ _ hstep)).2 hq, rfl⟩

/-- A way comes before one that it is the beginning of, and before one that goes on to a later
callee where they part. -/
inductive Precedes (nodes : Array CallNode) : List Nat → List Nat → Prop
  | above {i j : Nat} {q : List Nat} : Precedes nodes [i] (i :: j :: q)
  | beside {i a b : Nat} {node : CallNode} {p q : List Nat} (hi : nodes[i]? = some node)
      (h : [a, b].Sublist node.callees) : Precedes nodes (i :: a :: p) (i :: b :: q)
  | inside {i : Nat} {p q : List Nat} (h : Precedes nodes p q) : Precedes nodes (i :: p) (i :: q)

theorem not_precedes_self (hcallees : ∀ node ∈ nodes, node.callees.Nodup) :
    ¬ Precedes nodes p p := by
  induction p with
  | nil => exact fun h => by cases h
  | cons i p ih =>
    intro h
    cases h with
    | beside hi hsub =>
      have hnodup := (hcallees _ (Array.mem_of_getElem? hi)).sublist hsub
      exact (List.nodup_cons.1 hnodup).1 (List.mem_singleton_self _)
    | inside h => exact ih h

/-- The ways down are listed in pre-order. -/
theorem pairwise_descents (nodes : Array CallNode) (path : List Nat) (index : Nat) :
    (descents nodes path index).Pairwise (Precedes nodes) := by
  induction path, index using explore_induction nodes with
  | met path index hp =>
    cases hi : nodes[index]? with
    | none => rw [descents_of_none hi]; exact .nil
    | some node => rw [descents_of_mem hp hi]; exact List.pairwise_singleton ..
  | unknown path index hp hi => rw [descents_of_none hi]; exact .nil
  | entered path index node hp hi ih =>
    rw [descents_of_getElem? hp hi, List.pairwise_cons, List.pairwise_flatMap]
    refine ⟨fun p hp => ?_, fun callee _ => ?_, ?_⟩
    · obtain ⟨callee, -, hp⟩ := List.mem_flatMap.1 hp
      obtain ⟨q, hq, rfl⟩ := List.mem_map.1 hp
      obtain ⟨q, rfl⟩ := exists_cons_of_mem_descents hq
      exact .above
    · exact List.pairwise_map.2 ((ih callee).imp .inside)
    · refine List.pairwise_iff_forall_sublist.2 fun hsub first hfirst second hsecond => ?_
      obtain ⟨p, hp, rfl⟩ := List.mem_map.1 hfirst
      obtain ⟨q, hq, rfl⟩ := List.mem_map.1 hsecond
      obtain ⟨p, rfl⟩ := exists_cons_of_mem_descents hp
      obtain ⟨q, rfl⟩ := exists_cons_of_mem_descents hq
      exact .beside hi hsub

theorem nodup_descents (hcallees : ∀ node ∈ nodes, node.callees.Nodup) :
    (descents nodes path index).Nodup := by
  refine (pairwise_descents nodes path index).imp ?_
  rintro p _ h rfl
  exact not_precedes_self hcallees h

/-- A way ends at a function that it passed before, or that is on the path above or calls itself. -/
def EndsInRecursion (nodes : Array CallNode) (path p : List Nat) (x : Nat) : Prop :=
  p.getLast? = some x ∧ (x ∈ path ++ p.dropLast ∨ MarkedSelf nodes x)

theorem endsInRecursion_singleton {node : CallNode} {x : Nat} (hp : index ∉ path)
    (hi : nodes[index]? = some node) :
    EndsInRecursion nodes path [index] x ↔ node.recursion = .self ∧ x = index := by
  rw [EndsInRecursion, List.getLast?_singleton, Option.some.injEq, List.dropLast_singleton,
    List.append_nil]
  constructor
  · rintro ⟨rfl, hmem | ⟨node', hi', hself⟩⟩
    · exact absurd hmem hp
    · rw [hi] at hi'
      cases hi'
      exact ⟨hself, rfl⟩
  · rintro ⟨hself, rfl⟩
    exact ⟨rfl, .inr ⟨node, hi, hself⟩⟩

theorem endsInRecursion_cons {callee x : Nat} {q : List Nat} :
    EndsInRecursion nodes path (index :: callee :: q) x ↔
      EndsInRecursion nodes (index :: path) (callee :: q) x := by
  simp only [EndsInRecursion, List.getLast?_cons_cons, List.dropLast_cons_cons, List.mem_append,
    List.mem_cons]
  tauto

/-- A search meets recursion at the ends of ways down. -/
theorem mem_points_iff {x : Nat} (hpath : ∀ i ∈ path, i < nodes.size) :
    x ∈ (explore nodes path index).points ↔
      ∃ p ∈ descents nodes path index, EndsInRecursion nodes path p x := by
  induction path, index using explore_induction nodes with
  | met path index hp =>
    rw [explore_of_mem hp, descents_of_mem hp (Array.getElem?_eq_getElem (hpath index hp))]
    simp only [List.mem_singleton, exists_eq_left, EndsInRecursion, List.getLast?_singleton,
      Option.some.injEq]
    constructor
    · rintro rfl
      exact ⟨rfl, .inl (List.mem_append_left _ hp)⟩
    · exact fun h => h.1.symm
  | unknown path index hp hi =>
    rw [explore_of_none hp hi, descents_of_none hi]
    simp
  | entered path index node hp hi ih =>
    have hpath' : ∀ i ∈ index :: path, i < nodes.size :=
      List.forall_mem_cons.2 ⟨(Array.getElem?_eq_some_iff.1 hi).1, hpath⟩
    rw [mem_points_explore hp hi, descents_of_getElem? hp hi]
    simp only [List.mem_cons, exists_eq_or_imp, endsInRecursion_singleton hp hi]
    refine or_congr_right ?_
    constructor
    · rintro ⟨callee, hcallee, hx⟩
      obtain ⟨q, hq, hends⟩ := (ih callee hpath').1 hx
      refine ⟨index :: q, List.mem_flatMap.2 ⟨callee, hcallee, List.mem_map_of_mem hq⟩, ?_⟩
      obtain ⟨q, rfl⟩ := exists_cons_of_mem_descents hq
      exact endsInRecursion_cons.2 hends
    · rintro ⟨p, hp, hends⟩
      obtain ⟨callee, hcallee, hp⟩ := List.mem_flatMap.1 hp
      obtain ⟨q, hq, rfl⟩ := List.mem_map.1 hp
      refine ⟨callee, hcallee, (ih callee hpath').2 ⟨q, hq, ?_⟩⟩
      obtain ⟨q, rfl⟩ := exists_cons_of_mem_descents hq
      exact endsInRecursion_cons.1 hends

/-- A way down that comes to its end without passing a function twice, or there comes back to one
that it passed. -/
inductive Descent (nodes : Array CallNode) (root : Nat) : List Nat → Prop
  | path {p : List Nat} (h : SimplePath (HasCallee nodes) root p) : Descent nodes root p
  | back {p : List Nat} {i callee : Nat} (h : SimplePath (HasCallee nodes) root p)
      (hlast : p.getLast? = some i) (hcallee : HasCallee nodes i callee) (hmet : callee ∈ p) :
      Descent nodes root (p ++ [callee])

theorem Descent.passesOnce (h : Descent nodes index p) : PassesOnce nodes [] index p := by
  cases h with
  | path h =>
    exact ⟨h.head, h.chain, h.nodup.sublist (List.dropLast_sublist p), List.disjoint_nil_right _⟩
  | @back p i callee h hlast hcallee hmet =>
    refine ⟨?_, ?_, ?_, List.disjoint_nil_right _⟩
    · rw [List.head?_append, h.head]
      rfl
    · refine List.isChain_append.2 ⟨h.chain, .singleton callee, fun a ha b hb => ?_⟩
      rw [hlast] at ha
      cases ha
      cases hb
      exact hcallee
    · rw [List.dropLast_concat]
      exact h.nodup

/-- The end of a way was passed before if the way passes some function twice. -/
theorem mem_dropLast_iff {x : Nat} (h : p.dropLast.Nodup) (hlast : p.getLast? = some x) :
    x ∈ p.dropLast ↔ ¬ p.Nodup := by
  obtain ⟨s, rfl⟩ : ∃ s, p = s ++ [x] := ⟨_, (List.dropLast_append_getLast? x hlast).symm⟩
  rw [List.dropLast_concat] at h ⊢
  simp [List.nodup_append, h]

theorem PassesOnce.descent (h : PassesOnce nodes [] index p) : Descent nodes index p := by
  obtain ⟨hhead, hchain, hnodup, -⟩ := h
  rcases List.eq_nil_or_concat' p with rfl | ⟨s, x, rfl⟩
  · cases hhead
  · rw [List.dropLast_concat] at hnodup
    by_cases hmet : x ∈ s
    · rcases List.eq_nil_or_concat' s with rfl | ⟨t, i, rfl⟩
      · cases hmet
      · obtain ⟨hchain, -, hstep⟩ := List.isChain_append.1 hchain
        refine .back ⟨?_, hnodup, hchain⟩ List.getLast?_concat (hstep i ?_ x rfl) hmet
        · rw [← hhead, List.append_assoc, List.head?_append, List.head?_append]
          cases t <;> rfl
        · rw [List.getLast?_concat]
          rfl
    · refine .path ⟨hhead, List.nodup_append.2 ⟨hnodup, List.pairwise_singleton _ x, ?_⟩, hchain⟩
      rintro a ha b hb rfl
      exact hmet (List.mem_singleton.1 hb ▸ ha)

theorem descent_iff : Descent nodes index p ↔ PassesOnce nodes [] index p :=
  ⟨Descent.passesOnce, PassesOnce.descent⟩

end StackSurvey.CallGraph
