import StackSurvey.CallGraph.Compute
import StackSurvey.CallGraph.Dump
import StackSurvey.Proofs.CallGraph.Exploration

namespace StackSurvey.CallGraph

/-- The first function that carries a symbol number. -/
def target? (g : CallGraph) (symbolNumber : Nat) : Option Nat :=
  g.nodes.findIdx? (·.symbolNumber == symbolNumber)

/-- The functions of a graph are found by their symbol numbers. -/
def Indexed (g : CallGraph) : Prop := ∀ n, g.bySymbol[n]? = g.target? n

/-- The call graphs that dumps, added functions and computations lead to. -/
inductive Built : CallGraph → Prop
  | empty : Built {}
  | parsed {text : String} {g : CallGraph} (h : parse text = .ok g) : Built g
  | added {g : CallGraph} (h : Built g) (node : CallNode) : Built (g.addNode node)
  | computed {g : CallGraph} (h : Built g) (report : StackReport) : Built (g.compute report).1

variable {g : CallGraph} {report : StackReport} {i : Nat}

theorem Indexed.empty : Indexed {} := by
  intro n
  rw [target?, Array.findIdx?_empty, Std.HashMap.getElem?_empty]

theorem Indexed.addNode (h : g.Indexed) (node : CallNode) : (g.addNode node).Indexed := by
  intro n
  rw [target?, CallGraph.addNode, Array.findIdx?_push, Std.HashMap.getElem?_insertIfNew]
  change _ = (g.target? n).or _
  rw [← h n]
  by_cases hn : node.symbolNumber = n
  · subst n
    cases hb : g.bySymbol[node.symbolNumber]? with
    | none => simp [Std.HashMap.mem_iff_isSome_getElem?, hb]
    | some first => simp [Std.HashMap.mem_iff_isSome_getElem?, hb]
  · simp [hn]

/-- Symbol numbers decide which functions are found. -/
theorem Indexed.of_symbolNumber {g' : CallGraph} (h : g.Indexed) (hs : g'.bySymbol = g.bySymbol)
    (hn : g'.nodes.map (·.symbolNumber) = g.nodes.map (·.symbolNumber)) : g'.Indexed := by
  intro n
  have key (nodes : Array CallNode) : nodes.findIdx? (·.symbolNumber == n) =
      (nodes.map (·.symbolNumber)).findIdx? (· == n) := by
    rw [Array.findIdx?_map]
    rfl
  rw [hs, h n, target?, target?, key, key, hn]

/-- The functions with their calls resolved, before any search. -/
def resolvedNodes (g : CallGraph) (report : StackReport) : Array CallNode :=
  g.nodes.mapIdx fun index node => g.resolveNode report index node

theorem getElem?_resolvedNodes :
    (g.resolvedNodes report)[i]? = (g.nodes[i]?).map (g.resolveNode report i) := by
  rw [resolvedNodes, Array.getElem?_mapIdx]

def recursionPoints (nodes : Array CallNode) : List Nat :=
  (List.range nodes.size).flatMap fun i => (explore nodes [] i).points

/-- A resolved function with what exploring the graph tells of it. -/
def exploredNode (nodes : Array CallNode) (i : Nat) (node : CallNode) : CallNode :=
  let reported := withReport node (explore nodes [] i)
  if i ∈ recursionPoints nodes then withLoop reported else reported

theorem withLoop_withLoop (node : CallNode) : withLoop (withLoop node) = withLoop node := by
  have h : (node.recursion.escalate .loop).escalate .loop = node.recursion.escalate .loop :=
    Recursion.rank_injective (by simp only [Recursion.rank_escalate, Nat.max_assoc, Nat.max_self])
  rw [withLoop, withLoop, h]

/-- Marking the functions at some places marks each of them once. -/
theorem getElem?_foldl_withLoop (points : List Nat) (nodes : Array CallNode) :
    (points.foldl (fun nodes point => nodes.modify point withLoop) nodes)[i]? =
      (nodes[i]?).map fun node => if i ∈ points then withLoop node else node := by
  induction points generalizing nodes with
  | nil => simp
  | cons point points ih =>
    rw [List.foldl_cons, ih, Array.getElem?_modify]
    by_cases hp : point = i
    · subst point
      cases nodes[i]? with
      | none => simp
      | some node => simp [withLoop_withLoop]
    · have hi : ¬ i = point := fun h => hp h.symm
      simp [hp, hi]

theorem getElem?_withReports (nodes : Array CallNode) :
    (withReports nodes)[i]? = (nodes[i]?).map (exploredNode nodes i) := by
  have hfound := Walker.analyseAll_eq_map_explore (List.range nodes.size)
    (Walker.sound_fresh nodes) Walker.marks_replicate
  have hpoints : ((List.range nodes.size).map (explore nodes [])).flatMap (·.points) =
      recursionPoints nodes := by
    rw [List.flatMap_map]
    rfl
  rw [withReports, hfound, getElem?_foldl_withLoop, hpoints, Array.getElem?_zipWith]
  by_cases hi : i < nodes.size
  · simp [hi, exploredNode]
  · simp [hi]

/-- A computation resolves each function and tells what exploring the resolved graph does. -/
theorem getElem?_nodes_compute (g : CallGraph) (report : StackReport) (i : Nat) :
    (g.compute report).1.nodes[i]? = (g.nodes[i]?).map fun node =>
      exploredNode (g.resolvedNodes report) i (g.resolveNode report i node) := by
  change (withReports (g.resolvedNodes report))[i]? = _
  rw [getElem?_withReports, getElem?_resolvedNodes, Option.map_map]
  rfl

theorem symbolNumber_exploredNode (nodes : Array CallNode) (node : CallNode) :
    (exploredNode nodes i node).symbolNumber = node.symbolNumber := by
  unfold exploredNode
  split <;> rfl

theorem localStack_exploredNode (nodes : Array CallNode) (node : CallNode) :
    (exploredNode nodes i node).localStack = node.localStack := by
  unfold exploredNode
  split <;> rfl

theorem callees_exploredNode (nodes : Array CallNode) (node : CallNode) :
    (exploredNode nodes i node).callees = node.callees := by
  unfold exploredNode
  split <;> rfl

theorem chain_exploredNode (nodes : Array CallNode) (i : Nat) (node : CallNode) :
    (exploredNode nodes i node).graphStack = (explore nodes [] i).chain.stack ∧
      (exploredNode nodes i node).depth = (explore nodes [] i).chain.frames - 1 := by
  unfold exploredNode
  split <;> exact ⟨rfl, rfl⟩

theorem Indexed.compute (h : g.Indexed) (report : StackReport) : (g.compute report).1.Indexed := by
  refine h.of_symbolNumber rfl ?_
  apply Array.ext_getElem?
  intro i
  rw [Array.getElem?_map, getElem?_nodes_compute, Array.getElem?_map, Option.map_map]
  congr 1
  funext node
  exact symbolNumber_exploredNode ..

/-- What added functions and changes to the last one preserve holds of what lines are read as. -/
theorem Dump.addLines_induction {motive : CallGraph → Prop} {lines : List (List Char)}
    {g g' : CallGraph}
    (added : ∀ g mangledName symbolNumber name address, motive g →
      motive (g.addNode { mangledName, symbolNumber, name, address }))
    (called : ∀ g more, motive g →
      motive (changeLast g fun node => { node with calls := node.calls ++ more }))
    (typed : ∀ g nodeType, motive g → motive (changeLast g fun node => { node with nodeType }))
    (hg : motive g) (h : addLines g lines = .ok g') : motive g' := by
  induction lines generalizing g with
  | nil =>
    cases h
    exact hg
  | cons line lines ih =>
    rw [addLines] at h
    split at h
    · cases h
      exact hg
    · split at h
      · exact ih (called _ _ hg) h
      · exact ih (typed _ _ hg) h
      · split at h
        · exact ih hg h
        · split at h
          · split at h
            · exact ih (added _ _ _ _ _ hg) h
            · cases h
          · split at h
            · cases h
              exact hg
            · exact ih hg h

theorem forall_mem_modify {P : CallNode → Prop} {change : CallNode → CallNode}
    (h : ∀ node ∈ g.nodes, P node) (hc : ∀ node, P node → P (change node)) :
    ∀ node ∈ (g.modify i change).nodes, P node := by
  intro node hn
  obtain ⟨j, hj⟩ := Array.mem_iff_getElem?.1 hn
  rw [CallGraph.modify, Array.getElem?_modify] at hj
  split at hj
  · obtain ⟨source, hsource, rfl⟩ := Option.map_eq_some_iff.1 hj
    exact hc source (h source (Array.mem_of_getElem? hsource))
  · exact h node (Array.mem_of_getElem? hj)

/-- What calls and a type leave true of a function holds of all functions of a dump, if it holds of
them as their lines give them. -/
theorem forall_mem_of_parse {P : CallNode → Prop} {text : String}
    (added : ∀ mangledName symbolNumber name address,
      P { mangledName, symbolNumber, name, address })
    (called : ∀ node more, P node → P { node with calls := node.calls ++ more })
    (typed : ∀ node nodeType, P node → P { node with nodeType })
    (h : parse text = .ok g) : ∀ node ∈ g.nodes, P node := by
  refine Dump.addLines_induction (motive := fun g => ∀ node ∈ g.nodes, P node)
    (fun g mangledName symbolNumber name address hg node hnode => ?_)
    (fun g more hg => forall_mem_modify hg fun node => called node more)
    (fun g nodeType hg => forall_mem_modify hg fun node => typed node nodeType)
    (fun node hnode => absurd hnode (Array.not_mem_empty _)) h
  rcases Array.mem_push.1 hnode with hnode | rfl
  · exact hg node hnode
  · exact added ..

theorem Indexed.modify (h : g.Indexed) {change : CallNode → CallNode}
    (hc : ∀ node, (change node).symbolNumber = node.symbolNumber) :
    (g.modify i change).Indexed := by
  refine h.of_symbolNumber rfl ?_
  apply Array.ext_getElem?
  intro j
  rw [CallGraph.modify, Array.getElem?_map, Array.getElem?_modify, Array.getElem?_map]
  split
  · rw [Option.map_map]
    congr 1
    funext node
    exact hc node
  · rfl

theorem Built.indexed (h : Built g) : g.Indexed := by
  induction h with
  | empty => exact .empty
  | parsed h =>
    exact Dump.addLines_induction (fun _ _ _ _ _ h => h.addNode _)
      (fun _ _ h => h.modify fun _ => rfl) (fun _ _ h => h.modify fun _ => rfl) .empty h
  | added _ node ih => exact ih.addNode node
  | computed _ report ih => exact ih.compute report

/-- One function calls another: one of its calls resolves to it. -/
def CallsTo (g : CallGraph) (a b : Nat) : Prop :=
  a ≠ b ∧ ∃ node, g.nodes[a]? = some node ∧
    ∃ call ∈ node.calls, g.target? call.symbolNumber = some b

/-- A function calls itself: one of its calls resolves to it. -/
def CallsItself (g : CallGraph) (i : Nat) : Prop :=
  ∃ node, g.nodes[i]? = some node ∧ ∃ call ∈ node.calls, g.target? call.symbolNumber = some i

instance (g : CallGraph) (a b : Nat) : Decidable (g.CallsTo a b) :=
  decidable_of_iff (a ≠ b ∧ (g.nodes[a]?).any fun node =>
    node.calls.any fun call => g.target? call.symbolNumber = some b)
    (by simp [CallsTo, Option.any_eq_true])

instance (g : CallGraph) (i : Nat) : Decidable (g.CallsItself i) :=
  decidable_of_iff ((g.nodes[i]?).any fun node =>
    node.calls.any fun call => g.target? call.symbolNumber = some i)
    (by simp [CallsItself, Option.any_eq_true])

def targets (g : CallGraph) (node : CallNode) : List Nat :=
  node.calls.filterMap fun call => g.bySymbol[call.symbolNumber]?

/-- Callees with a further one, unless it is the function itself or among them. -/
def addCallee (index : Nat) (callees : List Nat) (target : Nat) : List Nat :=
  if target = index ∨ callees.contains target then callees else callees ++ [target]

theorem calleesOf_eq_foldl (node : CallNode) :
    g.calleesOf i node = (g.targets node).foldl (addCallee i) [] := by
  rw [targets, List.foldl_filterMap]
  unfold calleesOf
  congr 1
  funext callees call
  cases g.bySymbol[call.symbolNumber]? <;> rfl

theorem mem_addCallee {callees : List Nat} {target b : Nat} :
    b ∈ addCallee i callees target ↔ b ∈ callees ∨ b ≠ i ∧ b = target := by
  unfold addCallee
  split
  · rename_i h
    rw [List.contains_iff_mem] at h
    constructor
    · exact .inl
    · rintro (hb | ⟨hb, rfl⟩)
      · exact hb
      · exact h.resolve_left hb
  · rename_i h
    rw [List.mem_append, List.mem_singleton]
    constructor
    · rintro (hb | rfl)
      · exact .inl hb
      · exact .inr ⟨fun hb => h (.inl hb), rfl⟩
    · rintro (hb | ⟨_, hb⟩)
      · exact .inl hb
      · exact .inr hb

theorem mem_foldl_addCallee {targets callees : List Nat} {b : Nat} :
    b ∈ targets.foldl (addCallee i) callees ↔ b ∈ callees ∨ b ≠ i ∧ b ∈ targets := by
  induction targets generalizing callees with
  | nil => simp
  | cons target targets ih =>
    rw [List.foldl_cons, ih, mem_addCallee, List.mem_cons]
    tauto

theorem mem_calleesOf {node : CallNode} {b : Nat} :
    b ∈ g.calleesOf i node ↔
      b ≠ i ∧ ∃ call ∈ node.calls, g.bySymbol[call.symbolNumber]? = some b := by
  rw [calleesOf_eq_foldl, mem_foldl_addCallee, targets, List.mem_filterMap]
  simp

theorem nodup_addCallee {callees : List Nat} (h : callees.Nodup) (target : Nat) :
    (addCallee i callees target).Nodup := by
  unfold addCallee
  split
  · exact h
  · rename_i hnew
    rw [List.contains_iff_mem] at hnew
    rw [List.nodup_append]
    refine ⟨h, List.pairwise_singleton _ target, fun a ha b hb heq => hnew (.inr ?_)⟩
    rwa [← List.mem_singleton.1 hb, ← heq]

theorem nodup_calleesOf (g : CallGraph) (i : Nat) (node : CallNode) :
    (g.calleesOf i node).Nodup := by
  rw [calleesOf_eq_foldl]
  suffices ∀ targets callees : List Nat, callees.Nodup →
      (targets.foldl (addCallee i) callees).Nodup from this _ [] List.nodup_nil
  intro targets
  induction targets with
  | nil => exact fun _ h => h
  | cons target targets ih => exact fun callees h => ih _ (nodup_addCallee h target)

/-- The callees of a resolved function are the others that it calls. -/
theorem hasCallee_resolvedNodes (h : g.Indexed) {a b : Nat} :
    HasCallee (g.resolvedNodes report) a b ↔ g.CallsTo a b := by
  unfold HasCallee CallsTo
  rw [getElem?_resolvedNodes]
  cases hn : g.nodes[a]? with
  | none => simp
  | some node =>
    simp only [Option.map_some, Option.some.injEq, exists_eq_left', resolveNode, mem_calleesOf]
    simp only [h _]
    tauto

theorem lt_of_callsTo {a b : Nat} (h : g.CallsTo a b) : a < g.nodes.size ∧ b < g.nodes.size := by
  obtain ⟨_, node, ha, _, _, hb⟩ := h
  exact ⟨(Array.getElem?_eq_some_iff.1 ha).1, (Array.findIdx?_eq_some_iff_getElem.1 hb).1⟩

theorem callsItself_iff (h : g.Indexed) {node : CallNode} (hi : g.nodes[i]? = some node) :
    g.CallsItself i ↔ g.callsItself i node = true := by
  unfold CallsItself callsItself
  simp [hi, h _]

end StackSurvey.CallGraph
