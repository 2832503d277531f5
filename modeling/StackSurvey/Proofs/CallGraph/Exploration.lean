import Mathlib.Data.List.Chain
import Mathlib.Logic.Relation
import StackSurvey.CallGraph.Search
import StackSurvey.CallGraph.Tree

namespace StackSurvey.CallGraph

open Relation

def HasCallee (nodes : Array CallNode) (a b : Nat) : Prop :=
  ∃ node, nodes[a]? = some node ∧ b ∈ node.callees

/-- A report with those of callees. -/
def BranchReport.joinAll (r : BranchReport) (callees : List Nat) (report : Nat → BranchReport) :
    BranchReport :=
  callees.foldl (fun r callee => r.join (report callee)) r

/-- The report of a function that is searched from the end of a path, nothing being remembered. -/
def explore (nodes : Array CallNode) (path : List Nat) (index : Nat) : BranchReport :=
  if hp : path.contains index then
    { points := [index] }
  else if hi : index < nodes.size then
    let node := nodes[index]
    let below := fun callee => explore nodes (index :: path) callee
    ((BranchReport.start index node).joinAll node.callees below).finish node
  else
    {}
termination_by offPath nodes.size path
decreasing_by exact offPath_cons hi (by simpa using hp)

variable {nodes : Array CallNode} {path : List Nat} {index : Nat}

theorem explore_of_mem (h : index ∈ path) : explore nodes path index = { points := [index] } := by
  rw [explore, dif_pos (List.contains_iff_mem.2 h)]

theorem explore_of_getElem? {node : CallNode} (hp : index ∉ path)
    (hi : nodes[index]? = some node) :
    explore nodes path index =
      ((BranchReport.start index node).joinAll node.callees (explore nodes (index :: path))).finish
        node := by
  obtain ⟨hlt, rfl⟩ := Array.getElem?_eq_some_iff.1 hi
  rw [explore, dif_neg (by simpa using hp), dif_pos hlt]

theorem explore_of_none (hp : index ∉ path) (hi : nodes[index]? = none) :
    explore nodes path index = {} := by
  rw [explore, dif_neg (by simpa using hp), dif_neg (by simpa using hi)]

/-- A function is on the path, or unknown, or its callees are explored below it. -/
theorem explore_induction (nodes : Array CallNode) {motive : List Nat → Nat → Prop}
    (met : ∀ path index, index ∈ path → motive path index)
    (unknown : ∀ path index, index ∉ path → nodes[index]? = none → motive path index)
    (entered : ∀ path index node, index ∉ path → nodes[index]? = some node →
      (∀ callee, motive (index :: path) callee) → motive path index)
    (path : List Nat) (index : Nat) : motive path index := by
  induction path, index using explore.induct nodes with
  | case1 path index hp => exact met _ _ (List.contains_iff_mem.1 hp)
  | case2 path index hp hi ih =>
    exact entered _ _ _ (by simpa using hp) (Array.getElem?_eq_getElem hi) ih
  | case3 path index hp hi => exact unknown _ _ (by simpa using hp) (by simpa using hi)

theorem BranchReport.mem_points_join {a b : BranchReport} {x : Nat} :
    x ∈ (a.join b).points ↔ x ∈ a.points ∨ x ∈ b.points := by
  suffices ∀ (ys xs : List Nat),
      x ∈ ys.foldl (fun points point => points.insert point) xs ↔ x ∈ xs ∨ x ∈ ys from
    this b.points a.points
  intro ys
  induction ys with
  | nil => simp
  | cons y ys ih =>
    intro xs
    rw [List.foldl_cons, ih, List.mem_insert_iff, List.mem_cons]
    tauto

theorem BranchReport.mem_points_joinAll {r : BranchReport} {callees : List Nat}
    {report : Nat → BranchReport} {x : Nat} :
    x ∈ (r.joinAll callees report).points ↔
      x ∈ r.points ∨ ∃ callee ∈ callees, x ∈ (report callee).points := by
  induction callees generalizing r with
  | nil => simp [joinAll]
  | cons callee callees ih =>
    rw [joinAll, List.foldl_cons, ← joinAll, ih, mem_points_join]
    simp only [List.mem_cons, exists_eq_or_imp]
    tauto

theorem BranchReport.joinAll_congr {r : BranchReport} {callees : List Nat}
    {f g : Nat → BranchReport} (h : ∀ callee ∈ callees, f callee = g callee) :
    r.joinAll callees f = r.joinAll callees g :=
  List.foldl_ext _ _ _ fun _ callee hc => by rw [h callee hc]

theorem BranchReport.mem_points_start {node : CallNode} {x : Nat} :
    x ∈ (start index node).points ↔ node.recursion = .self ∧ x = index := by
  unfold start
  split <;> simp_all

/-- The points below a function are itself if it is marked as calling itself, and those of its
callees. -/
theorem mem_points_explore {node : CallNode} {x : Nat} (hp : index ∉ path)
    (hi : nodes[index]? = some node) :
    x ∈ (explore nodes path index).points ↔
      (node.recursion = .self ∧ x = index) ∨
        ∃ callee ∈ node.callees, x ∈ (explore nodes (index :: path) callee).points := by
  rw [explore_of_getElem? hp hi]
  change x ∈ (BranchReport.joinAll _ _ _).points ↔ _
  rw [BranchReport.mem_points_joinAll, BranchReport.mem_points_start]

/-- Where no recursion is met, none is met from a callee either. -/
theorem points_callee_eq_nil {node : CallNode} {callee : Nat} (hp : index ∉ path)
    (hi : nodes[index]? = some node) (h : (explore nodes path index).points = [])
    (hc : callee ∈ node.callees) : (explore nodes (index :: path) callee).points = [] := by
  rw [List.eq_nil_iff_forall_not_mem] at h ⊢
  intro x hx
  exact h x ((mem_points_explore hp hi).2 (.inr ⟨callee, hc, hx⟩))

theorem notMem_of_points_eq_nil (h : (explore nodes path index).points = []) : index ∉ path := by
  intro hp
  rw [explore_of_mem hp] at h
  cases h

/-- Where no recursion is met, every function that calls lead to is explored below a longer path,
and no recursion is met there. -/
theorem exists_points_eq_nil {j : Nat} (h : (explore nodes path index).points = [])
    (hr : ReflTransGen (HasCallee nodes) index j) :
    ∃ longer, path ⊆ longer ∧ (explore nodes longer j).points = [] := by
  induction hr using ReflTransGen.head_induction_on generalizing path with
  | refl => exact ⟨path, fun _ hx => hx, h⟩
  | head hc _ ih =>
    obtain ⟨node, hi, hc⟩ := hc
    obtain ⟨longer, hs, hl⟩ := ih (points_callee_eq_nil (notMem_of_points_eq_nil h) hi h hc)
    exact ⟨longer, fun x hx => hs (List.mem_cons_of_mem _ hx), hl⟩

/-- Where no recursion is met, no call leads back to the path. -/
theorem notMem_of_reachable {j : Nat} (h : (explore nodes path index).points = [])
    (hr : ReflTransGen (HasCallee nodes) index j) : j ∉ path := by
  obtain ⟨longer, hs, hl⟩ := exists_points_eq_nil h hr
  exact fun hj => notMem_of_points_eq_nil hl (hs hj)

/-- Where no recursion is met, no function that calls lead to calls itself through others. -/
theorem not_transGen_self {j : Nat} (h : (explore nodes path index).points = [])
    (hr : ReflTransGen (HasCallee nodes) index j) : ¬ TransGen (HasCallee nodes) j j := by
  intro hj
  obtain ⟨callee, ⟨node, hi, hc⟩, hback⟩ := TransGen.head'_iff.1 hj
  obtain ⟨longer, _, hl⟩ := exists_points_eq_nil h hr
  have hcallee := points_callee_eq_nil (notMem_of_points_eq_nil hl) hi hl hc
  exact notMem_of_reachable hcallee hback (List.mem_cons_self ..)

/-- Where no recursion is met, no function that calls lead to is marked as calling itself. -/
theorem recursion_ne_self {j : Nat} {node : CallNode} (h : (explore nodes path index).points = [])
    (hr : ReflTransGen (HasCallee nodes) index j) (hj : nodes[j]? = some node) :
    node.recursion ≠ .self := by
  intro hself
  obtain ⟨longer, _, hl⟩ := exists_points_eq_nil h hr
  have hmem : j ∈ (explore nodes longer j).points :=
    (mem_points_explore (notMem_of_points_eq_nil hl) hj).2 (.inl ⟨hself, rfl⟩)
  rw [hl] at hmem
  cases hmem

/-- Where no recursion is met, the report is the same below every path that calls do not lead back
to. -/
theorem explore_eq_of_points_eq_nil {other : List Nat}
    (h : (explore nodes path index).points = [])
    (hother : ∀ j, ReflTransGen (HasCallee nodes) index j → j ∉ other) :
    explore nodes other index = explore nodes path index := by
  induction path, index using explore_induction nodes generalizing other with
  | met path index hp => exact absurd hp (notMem_of_points_eq_nil h)
  | unknown path index hp hi =>
    rw [explore_of_none hp hi, explore_of_none (hother _ .refl) hi]
  | entered path index node hp hi ih =>
    rw [explore_of_getElem? hp hi, explore_of_getElem? (hother _ .refl) hi]
    congr 1
    refine BranchReport.joinAll_congr fun callee hc => ?_
    have hcallee := points_callee_eq_nil hp hi h hc
    have hstep : HasCallee nodes index callee := ⟨node, hi, hc⟩
    refine ih callee hcallee fun j hj hmem => ?_
    rcases List.mem_cons.1 hmem with rfl | hmem
    · exact notMem_of_reachable hcallee hj (List.mem_cons_self ..)
    · exact hother j (.head hstep hj) hmem

/-- A path of calls leads from each of its functions to a function. -/
def LeadsTo (nodes : Array CallNode) (path : List Nat) (index : Nat) : Prop :=
  ∀ i ∈ path, TransGen (HasCallee nodes) i index

theorem LeadsTo.callee {node : CallNode} {callee : Nat} (h : LeadsTo nodes path index)
    (hi : nodes[index]? = some node) (hc : callee ∈ node.callees) :
    LeadsTo nodes (index :: path) callee := by
  have hstep : HasCallee nodes index callee := ⟨node, hi, hc⟩
  intro i hmem
  rcases List.mem_cons.1 hmem with rfl | hmem
  · exact .single hstep
  · exact (h i hmem).tail hstep

theorem LeadsTo.lt_size {i : Nat} (h : LeadsTo nodes path index) (hi : i ∈ path) :
    i < nodes.size := by
  obtain ⟨callee, ⟨node, hnode, -⟩, -⟩ := TransGen.head'_iff.1 (h i hi)
  exact (Array.getElem?_eq_some_iff.1 hnode).1

namespace Walker

variable {w : Walker nodes.size} {marks : Vector Bool nodes.size}

/-- The marks are those of the functions on a path. -/
def Marks (marks : Vector Bool nodes.size) (path : List Nat) : Prop :=
  ∀ i (_ : i < nodes.size), marks[i] = true ↔ i ∈ path

/-- Every chain that is remembered is the whole report of its function. -/
def Sound (w : Walker nodes.size) : Prop :=
  ∀ i (_ : i < nodes.size) chain, w.settled[i] = some chain → explore nodes [] i = { chain }

theorem marks_replicate : Marks (.replicate nodes.size false) [] := by
  intro i hi
  rw [Vector.getElem_replicate]
  simp

theorem sound_fresh (nodes : Array CallNode) : (fresh nodes.size).Sound := by
  intro i hi chain h
  rw [fresh, Vector.getElem_replicate] at h
  cases h

theorem Marks.set (h : Marks marks path) (hi : index < nodes.size) :
    Marks (marks.set index true) (index :: path) := by
  intro i hlt
  rw [Vector.getElem_set, List.mem_cons]
  split
  · rename_i heq
    simp [heq]
  · rename_i hne
    rw [h i hlt, or_iff_right (Ne.symm hne)]

/-- A chain may be remembered if no recursion was met. -/
theorem Sound.set {onPath : Vector Bool nodes.size} (hs : w.Sound) (hi : index < nodes.size)
    (h : (explore nodes path index).points = []) :
    Sound ⟨onPath, w.settled.set index (some (explore nodes path index).chain)⟩ := by
  intro i hlt chain hchain
  rw [Vector.getElem_set] at hchain
  split at hchain
  · subst i
    cases hchain
    rw [explore_eq_of_points_eq_nil h fun _ _ => List.not_mem_nil, ← h]
  · exact hs i hlt chain hchain

/-- What is remembered answers for a function wherever it is met. -/
theorem Sound.explore_eq {chain : Chain} (hs : w.Sound) (hl : LeadsTo nodes path index)
    (hi : index < nodes.size) (h : w.settled[index] = some chain) :
    explore nodes path index = { chain } := by
  have hroot := hs index hi chain h
  have hnil : (explore nodes [] index).points = [] := by rw [hroot]
  rw [← hroot]
  refine explore_eq_of_points_eq_nil hnil fun j hj hmem => ?_
  exact not_transGen_self hnil hj ((hl j hmem).trans_left hj)

/-- If the searches of callees find what exploring them finds, so do all of them in turn. -/
theorem foldl_walk (path callees : List Nat)
    (before : { found : BranchReport × Walker nodes.size // found.2.onPath = marks })
    (hs : before.1.2.Sound)
    (h : ∀ callee ∈ callees, ∀ {w : Walker nodes.size}, w.Sound → w.onPath = marks →
      (walk nodes w callee).1.1 = explore nodes path callee ∧
        Sound (walk nodes w callee).1.2) :
    let below := callees.foldl
      (fun (before : { found : BranchReport × Walker nodes.size // found.2.onPath = marks })
          callee =>
        let branch := walk nodes before.1.2 callee
        ⟨(before.1.1.join branch.1.1, branch.1.2), branch.2.trans before.2⟩)
      before
    below.1.1 = before.1.1.joinAll callees (explore nodes path) ∧ below.1.2.Sound := by
  induction callees generalizing before with
  | nil => exact ⟨rfl, hs⟩
  | cons callee callees ih =>
    obtain ⟨hbranch, hsound⟩ := h callee (List.mem_cons_self ..) hs before.2
    rw [List.foldl_cons, BranchReport.joinAll, List.foldl_cons, ← hbranch]
    apply ih _ hsound
    intro other ho
    exact h other (List.mem_cons_of_mem _ ho)

/-- A search finds what exploring finds, and remembers only what is so. -/
theorem walk_eq_explore (hs : w.Sound) (hm : Marks w.onPath path)
    (hl : LeadsTo nodes path index) :
    (walk nodes w index).1.1 = explore nodes path index ∧ (walk nodes w index).1.2.Sound := by
  induction path, index using explore_induction nodes generalizing w with
  | met path index hp =>
    have hi := hl.lt_size hp
    rw [walk, dif_pos hi, dif_pos ((hm index hi).2 hp), explore_of_mem hp]
    exact ⟨rfl, hs⟩
  | unknown path index hp hi =>
    rw [walk, dif_neg (by simpa using hi), explore_of_none hp hi]
    exact ⟨rfl, hs⟩
  | entered path index node hp hi ih =>
    obtain ⟨hlt, hnode⟩ := Array.getElem?_eq_some_iff.1 hi
    rw [walk, dif_pos hlt, dif_neg (mt (hm index hlt).1 hp)]
    split
    · rename_i chain hc
      exact ⟨(hs.explore_eq hl hlt hc).symm, hs⟩
    · have hcallees : ∀ callee ∈ node.callees, ∀ {w' : Walker nodes.size}, w'.Sound →
          w'.onPath = w.onPath.set index true →
            (walk nodes w' callee).1.1 = explore nodes (index :: path) callee ∧
              Sound (walk nodes w' callee).1.2 := by
        intro callee hc w' hs' hw'
        apply ih callee hs'
        · rw [hw']
          exact hm.set hlt
        · exact hl.callee hi hc
      have hbelow := foldl_walk (index :: path) node.callees
        ⟨(.start index node, { w with onPath := w.onPath.set index true }), rfl⟩ hs hcallees
      dsimp only
      rw [hnode, explore_of_getElem? hp hi, ← hbelow.1]
      refine ⟨rfl, ?_⟩
      split
      · rename_i hnil
        rw [hbelow.1, ← explore_of_getElem? hp hi] at hnil ⊢
        exact hbelow.2.set hlt (List.isEmpty_iff.1 hnil)
      · exact hbelow.2

/-- Searching functions one after the other finds what exploring each of them finds. -/
theorem analyseAll_eq_map_explore (roots : List Nat) (hs : w.Sound) (hm : Marks w.onPath []) :
    (analyseAll roots w).1 = roots.map (explore nodes []) := by
  induction roots generalizing w with
  | nil => rfl
  | cons root roots ih =>
    have hl : LeadsTo nodes [] root := fun i hi => by cases hi
    obtain ⟨hfound, hsound⟩ := walk_eq_explore hs hm hl
    have hm' : Marks (walk nodes w root).1.2.onPath [] := by
      rw [(walk nodes w root).2]
      exact hm
    rw [List.map_cons, ← hfound, ← ih hsound hm']
    rfl

theorem onPath_analyseAll (roots : List Nat) (w : Walker nodes.size) :
    (analyseAll roots w).2.onPath = w.onPath := by
  induction roots generalizing w with
  | nil => rfl
  | cons root roots ih => exact (ih (walk nodes w root).1.2).trans (walk nodes w root).2

/-- One walker that is asked for functions in any order, again and again, answers each time what
the plain search of that function finds, and never leaves a function marked. -/
theorem analyseAll_fresh (nodes : Array CallNode) (roots : List Nat) :
    (analyseAll roots (fresh nodes.size)).1 = roots.map (explore nodes []) ∧
      (analyseAll roots (fresh nodes.size)).2.onPath = .replicate nodes.size false :=
  ⟨analyseAll_eq_map_explore roots (sound_fresh nodes) marks_replicate, onPath_analyseAll ..⟩

end Walker

end StackSurvey.CallGraph
