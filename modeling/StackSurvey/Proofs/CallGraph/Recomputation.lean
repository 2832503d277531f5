import StackSurvey.Proofs.CallGraph.ComputedGraph

namespace StackSurvey

namespace StackUsage

/-- A usage that knows more symbols. -/
def link (usage : StackUsage) (symbols : List String) : StackUsage :=
  { usage with mangledNames := symbols.foldl (·.insert ·) usage.mangledNames }

/-- A symbol that is known is not entered again. -/
theorem insert_of_mem {known : Std.TreeSet String} {symbol : String} (h : symbol ∈ known) :
    known.insert symbol = known := by
  have hcontains : known.inner.inner.inner.contains symbol = true := h
  unfold Std.TreeSet.insert Std.TreeMap.insertIfNew Std.DTreeMap.insertIfNew
    Std.DTreeMap.Internal.Impl.insertIfNew
  simp only [hcontains, if_true]

theorem mem_foldl_insert {known : Std.TreeSet String} {symbols : List String} {symbol : String} :
    symbol ∈ symbols.foldl (·.insert ·) known ↔ symbol ∈ known ∨ symbol ∈ symbols := by
  induction symbols generalizing known with
  | nil => simp
  | cons first symbols ih =>
    rw [List.foldl_cons, ih, Std.TreeSet.mem_insert, Std.LawfulEqCmp.compare_eq_iff_eq,
      List.mem_cons]
    tauto

theorem foldl_insert_of_subset {known : Std.TreeSet String} {symbols : List String}
    (h : ∀ symbol ∈ symbols, symbol ∈ known) : symbols.foldl (·.insert ·) known = known := by
  induction symbols with
  | nil => rfl
  | cons first symbols ih =>
    obtain ⟨hfirst, hrest⟩ := List.forall_mem_cons.1 h
    rw [List.foldl_cons, insert_of_mem hfirst, ih hrest]

variable {usage : StackUsage} {known symbols : List String}

theorem mem_link {symbol : String} :
    symbol ∈ (usage.link symbols).mangledNames ↔ symbol ∈ usage.mangledNames ∨ symbol ∈ symbols :=
  mem_foldl_insert

/-- Symbols that come first among those linked may have been linked before. -/
theorem link_link (h : known <+: symbols) :
    (usage.link known).link symbols = usage.link symbols := by
  obtain ⟨rest, rfl⟩ := h
  unfold link
  rw [List.foldl_append, List.foldl_append]
  dsimp only
  rw [foldl_insert_of_subset fun symbol hsymbol => mem_foldl_insert.2 (.inr hsymbol)]

end StackUsage

namespace CallGraph

open Relation

variable {g k : CallGraph} {report : StackReport} {i : Nat} {node : CallNode}

/-- The symbols of the functions with a name. -/
def symbolsNamed (g : CallGraph) (name : String) : List String :=
  (g.nodes.toList.filter (·.name == name)).map (·.mangledName)

theorem getElem?_linkReport (g : CallGraph) (report : StackReport) (name : String) :
    (g.linkReport report)[name]? = report[name]?.map (·.link (g.symbolsNamed name)) := by
  rw [linkReport, symbolsNamed, ← Array.foldl_toList]
  induction g.nodes.toList generalizing report with
  | nil => cases h : report[name]? <;> simp [h, StackUsage.link]
  | cons node nodes ih =>
    rw [List.foldl_cons, ih, Std.TreeMap.getElem?_modify, List.filter_cons]
    by_cases hname : node.name = name
    · subst hname
      rw [if_pos Std.ReflCmp.compare_self, if_pos (beq_self_eq_true _), Option.map_map]
      rfl
    · rw [if_neg (mt Std.LawfulEqCmp.eq_of_compare hname), if_neg (by simpa using hname)]

theorem symbolsNamed_congr (h : g.nodes.map withoutResults = k.nodes.map withoutResults)
    (name : String) : g.symbolsNamed name = k.symbolsNamed name := by
  have hnames (g : CallGraph) : g.symbolsNamed name =
      ((g.nodes.map withoutResults).toList.filter (·.name == name)).map (·.mangledName) := by
    rw [Array.toList_map, List.filter_map, List.map_map]
    rfl
  rw [hnames, hnames, h]

/-- A function with results that are no less than what it has and no more than what a computation
gives it. -/
structure Anticipates (g : CallGraph) (report : StackReport) (i : Nat) (node ahead : CallNode) :
    Prop where
  withoutResults_eq : withoutResults ahead = withoutResults node
  le_localStack : node.localStack ≤ ahead.localStack
  localStack_le : ahead.localStack ≤ (g.resolveNode report i node).localStack
  le_rank : node.recursion.rank ≤ ahead.recursion.rank
  rank_le : ahead.recursion.rank ≤ (g.computedNode report i node).recursion.rank

/-- A graph and a report with results of computations that were made while functions of the graph
were still missing, or after that. -/
structure Foreruns (g : CallGraph) (report : StackReport) (s : CallGraph × StackReport) :
    Prop where
  bySymbol_eq : s.1.bySymbol = g.bySymbol
  size_eq : s.1.nodes.size = g.nodes.size
  anticipates : ∀ (i : Nat) (node ahead : CallNode), g.nodes[i]? = some node →
    s.1.nodes[i]? = some ahead → g.Anticipates report i node ahead
  linked : ∀ name, ∃ known, known <+: g.symbolsNamed name ∧
    s.2[name]? = report[name]?.map (·.link known)

theorem anticipates_self : g.Anticipates report i node node :=
  ⟨rfl, Nat.le_refl _, Nat.le_max_left .., Nat.le_refl _, rank_le_computedNode⟩

theorem anticipates_computedNode :
    g.Anticipates report i node (g.computedNode report i node) := by
  have hstack : (g.computedNode report i node).localStack =
      (g.resolveNode report i node).localStack := localStack_exploredNode ..
  refine ⟨withoutResults_computedNode, ?_, Nat.le_of_eq hstack, rank_le_computedNode,
    Nat.le_refl _⟩
  rw [hstack]
  exact Nat.le_max_left ..

theorem Anticipates.name_eq {ahead : CallNode} (h : g.Anticipates report i node ahead) :
    ahead.name = node.name := by
  have hname := congrArg CallNode.name h.withoutResults_eq
  exact hname

theorem Anticipates.calls_eq {ahead : CallNode} (h : g.Anticipates report i node ahead) :
    ahead.calls = node.calls := by
  have hcalls := congrArg CallNode.calls h.withoutResults_eq
  exact hcalls

theorem Anticipates.mono {ahead : CallNode} (h : g.Anticipates report i node ahead)
    (hk : g.Extends k) : k.Anticipates report i node ahead :=
  ⟨h.withoutResults_eq, h.le_localStack, h.localStack_le, h.le_rank,
    Nat.le_trans h.rank_le (hk.rank_computedNode_le report i node)⟩

namespace Foreruns

variable {s : CallGraph × StackReport}

theorem refl (g : CallGraph) (report : StackReport) : Foreruns g report (g, report) := by
  refine ⟨rfl, rfl, fun i node ahead hnode hahead => ?_, fun name => ⟨[], List.nil_prefix, ?_⟩⟩
  · rw [hnode] at hahead
    cases hahead
    exact anticipates_self
  · cases report[name]? <;> rfl

theorem add (h : Foreruns g report s) (node : CallNode) :
    Foreruns (g.addNode node) report (s.1.addNode node, s.2) := by
  constructor
  · rw [addNode, addNode, h.bySymbol_eq, h.size_eq]
  · rw [addNode, addNode, Array.size_push, Array.size_push, h.size_eq]
  · intro i before ahead hbefore hahead
    rw [addNode, Array.getElem?_push] at hbefore hahead
    rw [h.size_eq] at hahead
    by_cases hi : i = g.nodes.size
    · rw [if_pos hi] at hbefore hahead
      cases hbefore
      cases hahead
      exact anticipates_self
    · rw [if_neg hi] at hbefore hahead
      exact (h.anticipates i before ahead hbefore hahead).mono (extends_addNode g node)
  · intro name
    obtain ⟨known, hknown, hlinked⟩ := h.linked name
    refine ⟨known, hknown.trans ?_, hlinked⟩
    rw [symbolsNamed, symbolsNamed, addNode, Array.toList_push, List.filter_append,
      List.map_append]
    exact List.prefix_append ..

section

variable (h : Foreruns g report s)

include h

theorem getElem?_report (name : String) :
    s.2[name]?.map (·.stack) = report[name]?.map (·.stack) := by
  obtain ⟨known, -, hlinked⟩ := h.linked name
  rw [hlinked, Option.map_map]
  rfl

theorem getElem?_nodes (i : Nat) :
    (s.1.nodes[i]? = none ∧ g.nodes[i]? = none) ∨
      ∃ node ahead, g.nodes[i]? = some node ∧ s.1.nodes[i]? = some ahead ∧
        g.Anticipates report i node ahead := by
  by_cases hi : i < g.nodes.size
  · have hnode := Array.getElem?_eq_getElem hi
    have hahead := Array.getElem?_eq_getElem (h.size_eq ▸ hi : i < s.1.nodes.size)
    exact .inr ⟨_, _, hnode, hahead, h.anticipates i _ _ hnode hahead⟩
  · exact .inl ⟨Array.getElem?_eq_none (h.size_eq ▸ Nat.le_of_not_lt hi),
      Array.getElem?_eq_none (Nat.le_of_not_lt hi)⟩

section

variable {ahead : CallNode} (ha : g.Anticipates report i node ahead)

include ha

theorem callees_resolveNode :
    (s.1.resolveNode s.2 i ahead).callees = (g.resolveNode report i node).callees := by
  rw [resolveNode, resolveNode]
  dsimp only
  rw [calleesOf, calleesOf, ha.calls_eq, h.bySymbol_eq]

theorem localStack_resolveNode :
    (s.1.resolveNode s.2 i ahead).localStack = (g.resolveNode report i node).localStack := by
  have hle := ha.le_localStack
  have hbound := ha.localStack_le
  rw [resolveNode] at hbound ⊢
  dsimp only at hbound ⊢
  rw [ha.name_eq, h.getElem?_report node.name, resolveNode]
  dsimp only
  omega

theorem rank_resolveNode :
    (s.1.resolveNode s.2 i ahead).recursion.rank =
      max ahead.recursion.rank (g.resolveNode report i node).recursion.rank := by
  have hself : s.1.callsItself i ahead = g.callsItself i node := by
    rw [callsItself, callsItself, ha.calls_eq, h.bySymbol_eq]
  have hle := ha.le_rank
  rw [CallGraph.rank_resolveNode, CallGraph.rank_resolveNode, hself]
  omega

/-- The results that are there already do not show in a search. -/
theorem searched_resolveNode :
    searched (s.1.resolveNode s.2 i ahead) = searched (g.resolveNode report i node) := by
  have hself : (s.1.resolveNode s.2 i ahead).recursion = .self ↔
      (g.resolveNode report i node).recursion = .self := by
    -- A computation makes no function one that calls itself.
    have hcomputed := recursion_exploredNode_eq_self_iff (g.resolvedNodes report) i
      (g.resolveNode report i node)
    have hbound := ha.rank_le
    have hmost := (g.computedNode report i node).recursion.rank_le
    rw [Recursion.eq_self_iff, Recursion.eq_self_iff, ← computedNode] at hcomputed
    rw [Recursion.eq_self_iff, Recursion.eq_self_iff, h.rank_resolveNode ha]
    omega
  rw [searched, searched, h.callees_resolveNode ha, h.localStack_resolveNode ha,
    decide_eq_decide.2 hself]

end

theorem searched_resolvedNodes :
    (s.1.resolvedNodes s.2).map searched = (g.resolvedNodes report).map searched := by
  apply Array.ext_getElem?
  intro i
  rw [Array.getElem?_map, Array.getElem?_map, getElem?_resolvedNodes, getElem?_resolvedNodes]
  rcases h.getElem?_nodes i with ⟨hahead, hnode⟩ | ⟨node, ahead, hnode, hahead, ha⟩
  · rw [hahead, hnode]
    rfl
  · rw [hahead, hnode]
    exact congrArg some (h.searched_resolveNode ha)

theorem computedNode_eq {ahead : CallNode} (ha : g.Anticipates report i node ahead) :
    s.1.computedNode s.2 i ahead = g.computedNode report i node := by
  have hexplore : explore (s.1.resolvedNodes s.2) [] i = explore (g.resolvedNodes report) [] i :=
    explore_congr h.searched_resolvedNodes
  have hpoints := recursionPoints_congr h.searched_resolvedNodes
  obtain ⟨hgraph, hdepth⟩ := chain_exploredNode (s.1.resolvedNodes s.2) i
    (s.1.resolveNode s.2 i ahead)
  obtain ⟨hgraph', hdepth'⟩ := chain_exploredNode (g.resolvedNodes report) i
    (g.resolveNode report i node)
  refine eq_of_withoutResults ?_ ?_ ?_ ?_ ?_ ?_
  · rw [withoutResults_computedNode, withoutResults_computedNode, ha.withoutResults_eq]
  · rw [computedNode, computedNode, localStack_exploredNode, localStack_exploredNode,
      h.localStack_resolveNode ha]
  · rw [computedNode, computedNode, hgraph, hgraph', hexplore]
  · rw [computedNode, computedNode, hdepth, hdepth', hexplore]
  · rw [computedNode, computedNode, callees_exploredNode, callees_exploredNode,
      h.callees_resolveNode ha]
  · have hle := ha.rank_le
    apply Recursion.rank_injective
    rw [computedNode, rank_exploredNode] at hle ⊢
    rw [computedNode, rank_exploredNode, hexplore, hpoints, h.rank_resolveNode ha]
    omega

/-- A computation gives the graph what it gives it without what was there. -/
theorem compute_eq : (s.1.compute s.2).1 = (g.compute report).1 := by
  have hnodes : (s.1.compute s.2).1.nodes = (g.compute report).1.nodes := by
    apply Array.ext_getElem?
    intro i
    rw [getElem?_nodes_compute, getElem?_nodes_compute]
    rcases h.getElem?_nodes i with ⟨hahead, hnode⟩ | ⟨node, ahead, hnode, hahead, ha⟩
    · rw [hahead, hnode]
      rfl
    · rw [hahead, hnode]
      exact congrArg some (h.computedNode_eq ha)
  have hsymbols : (s.1.compute s.2).1.bySymbol = (g.compute report).1.bySymbol := h.bySymbol_eq
  exact congrArg₂ CallGraph.mk hnodes hsymbols

theorem getElem?_report_compute (name : String) :
    (s.1.compute s.2).2[name]? = (g.compute report).2[name]? := by
  have hnodes : s.1.nodes.map withoutResults = g.nodes.map withoutResults := by
    rw [← map_withoutResults_compute s.1 s.2, h.compute_eq, map_withoutResults_compute]
  obtain ⟨known, hknown, hlinked⟩ := h.linked name
  change (s.1.linkReport s.2)[name]? = (g.linkReport report)[name]?
  rw [getElem?_linkReport, getElem?_linkReport, hlinked, symbolsNamed_congr hnodes,
    Option.map_map]
  congr 1
  funext usage
  exact StackUsage.link_link hknown

theorem compute : Foreruns g report (s.1.compute s.2) := by
  refine ⟨h.bySymbol_eq, ?_, fun i node ahead hnode hahead => ?_, fun name => ?_⟩
  · rw [h.compute_eq, size_nodes_compute]
  · rw [h.compute_eq, getElem?_nodes_compute, hnode] at hahead
    cases hahead
    exact anticipates_computedNode
  · refine ⟨_, List.prefix_rfl, ?_⟩
    rw [h.getElem?_report_compute]
    exact getElem?_linkReport g report name

end

end Foreruns

/-- A step of building a call graph. -/
inductive BuildStep where
  | add (node : CallNode)
  | compute

namespace BuildStep

def run (s : CallGraph × StackReport) : BuildStep → CallGraph × StackReport
  | add node => (s.1.addNode node, s.2)
  | compute => s.1.compute s.2

/-- The function that a step adds. -/
def node? : BuildStep → Option CallNode
  | add node => some node
  | compute => none

end BuildStep

/-- A graph and a report after steps of building the graph. -/
def build (s : CallGraph × StackReport) (steps : List BuildStep) : CallGraph × StackReport :=
  steps.foldl BuildStep.run s

/-- A graph with the functions that steps add. -/
def withAdded (g : CallGraph) (steps : List BuildStep) : CallGraph :=
  (steps.filterMap BuildStep.node?).foldl addNode g

theorem Built.withAdded (h : Built g) (steps : List BuildStep) : Built (g.withAdded steps) := by
  unfold CallGraph.withAdded
  generalize steps.filterMap BuildStep.node? = added
  induction added generalizing g with
  | nil => exact h
  | cons node added ih => exact ih (.added h node)

theorem Foreruns.build {s : CallGraph × StackReport} (h : Foreruns g report s)
    (steps : List BuildStep) : Foreruns (g.withAdded steps) report (build s steps) := by
  induction steps generalizing g s with
  | nil => exact h
  | cons step steps ih =>
    cases step with
    | add node => exact ih (h.add node)
    | compute => exact ih h.compute

/-- A usage is another that has learnt the symbols with some property. -/
structure Learns (symbols : String → Prop) (before after : StackUsage) : Prop where
  same : { after with mangledNames := before.mangledNames } = before
  mem : ∀ symbol, symbol ∈ after.mangledNames ↔ symbol ∈ before.mangledNames ∨ symbols symbol

theorem Learns.refl (usage : StackUsage) : Learns (fun _ => False) usage usage :=
  ⟨rfl, fun _ => (or_false _).symm.to_iff⟩

theorem learns_link (usage : StackUsage) (symbols : List String) :
    Learns (· ∈ symbols) usage (usage.link symbols) :=
  ⟨rfl, fun _ => StackUsage.mem_link⟩

theorem Learns.trans {p q : String → Prop} {a b c : StackUsage} (hab : Learns p a b)
    (hbc : Learns q b c) : Learns (fun symbol => p symbol ∨ q symbol) a c := by
  refine ⟨?_, fun symbol => by rw [hbc.mem, hab.mem, or_assoc]⟩
  calc { c with mangledNames := a.mangledNames }
      = { ({ c with mangledNames := b.mangledNames } : StackUsage) with
          mangledNames := a.mangledNames } := rfl
    _ = { b with mangledNames := a.mangledNames } := by rw [hbc.same]
    _ = a := hab.same

/-- A function with a name and a symbol is in the graph when one of the steps computes it. -/
def Computes (g : CallGraph) (steps : List BuildStep) (name symbol : String) : Prop :=
  ∃ before after, steps = before ++ .compute :: after ∧
    ∃ node ∈ (g.withAdded before).nodes, node.name = name ∧ node.mangledName = symbol

section

variable {steps : List BuildStep} {name symbol : String}

theorem mem_symbolsNamed :
    symbol ∈ g.symbolsNamed name ↔
      ∃ node ∈ g.nodes, node.name = name ∧ node.mangledName = symbol := by
  rw [symbolsNamed, List.mem_map]
  simp only [List.mem_filter, Array.mem_toList_iff, beq_iff_eq, and_assoc]

theorem not_computes_nil : ¬ Computes g [] name symbol := by
  rintro ⟨before, after, hsteps, -⟩
  exact absurd hsteps.symm (List.append_ne_nil_of_right_ne_nil _ (List.cons_ne_nil _ _))

theorem computes_add_cons :
    Computes g (.add node :: steps) name symbol ↔ Computes (g.addNode node) steps name symbol := by
  constructor
  · rintro ⟨before, after, hsteps, hmem⟩
    cases before with
    | nil => cases hsteps
    | cons step before =>
      cases hsteps
      exact ⟨before, after, rfl, hmem⟩
  · rintro ⟨before, after, rfl, hmem⟩
    exact ⟨.add node :: before, after, rfl, hmem⟩

theorem computes_compute_cons :
    Computes g (.compute :: steps) name symbol ↔
      symbol ∈ g.symbolsNamed name ∨ Computes g steps name symbol := by
  constructor
  · rintro ⟨before, after, hsteps, hmem⟩
    cases before with
    | nil => exact .inl (mem_symbolsNamed.2 hmem)
    | cons step before =>
      cases hsteps
      exact .inr ⟨before, after, rfl, hmem⟩
  · rintro (hmem | ⟨before, after, rfl, hmem⟩)
    · exact ⟨[], steps, rfl, mem_symbolsNamed.1 hmem⟩
    · exact ⟨.compute :: before, after, rfl, hmem⟩

/-- The report learns what each computation finds in the graph, and nothing else. -/
theorem learns_build (h : k.nodes.map withoutResults = g.nodes.map withoutResults)
    (report : StackReport) (steps : List BuildStep) (name : String) :
    Option.Rel (Learns (Computes g steps name)) report[name]?
      (build (k, report) steps).2[name]? := by
  induction steps generalizing g k report with
  | nil =>
    change Option.Rel _ report[name]? report[name]?
    have hnone : Computes g [] name = fun _ => False :=
      funext fun _ => propext (iff_false_intro not_computes_nil)
    rw [hnone]
    cases report[name]? with
    | none => exact .none
    | some usage => exact .some (.refl usage)
  | cons step steps ih =>
    cases step with
    | add node =>
      have hadded : (k.addNode node).nodes.map withoutResults =
          (g.addNode node).nodes.map withoutResults := by
        rw [addNode, addNode, Array.map_push, Array.map_push, h]
      have hcomputes : Computes g (.add node :: steps) name =
          Computes (g.addNode node) steps name := funext fun _ => propext computes_add_cons
      rw [hcomputes]
      exact ih hadded report
    | compute =>
      have hcomputes : Computes g (.compute :: steps) name =
          fun symbol => symbol ∈ g.symbolsNamed name ∨ Computes g steps name symbol :=
        funext fun _ => propext computes_compute_cons
      have hrest := ih ((map_withoutResults_compute k report).trans h) (k.linkReport report)
      rw [getElem?_linkReport, symbolsNamed_congr h] at hrest
      change Option.Rel _ _ (build ((k.compute report).1, k.linkReport report) steps).2[name]?
      rw [hcomputes]
      generalize (build ((k.compute report).1, k.linkReport report) steps).2[name]? = after at hrest
      cases husage : report[name]? with
      | none =>
        rw [husage] at hrest
        cases hrest
        exact .none
      | some usage =>
        rw [husage] at hrest
        cases hrest with
        | some hafter => exact .some ((learns_link usage _).trans hafter)

end

theorem build_concat_compute (s : CallGraph × StackReport) (steps : List BuildStep) :
    build s (steps ++ [.compute]) = (build s steps).1.compute (build s steps).2 := by
  rw [build, List.foldl_append]
  rfl

/-- Computations before the last do not show in the graph. -/
theorem graph_build_compute (g : CallGraph) (report : StackReport) (steps : List BuildStep) :
    (build (g, report) (steps ++ [.compute])).1 = ((g.withAdded steps).compute report).1 := by
  rw [build_concat_compute]
  exact ((Foreruns.refl g report).build steps).compute_eq

/-- Whatever steps build a graph, a computation at their end leaves what one computation of all the
functions leaves, and a further one changes nothing. After any steps the usages in the report are
the same but for the symbols that they have learnt: those of the functions with their names that
some computation found. -/
theorem build_compute (g : CallGraph) (report : StackReport) (steps : List BuildStep) :
    let last := build (g, report) (steps ++ [.compute])
    let once := (g.withAdded steps).compute report
    let again := last.1.compute last.2
    (last.1 = once.1 ∧ ∀ name : String, last.2[name]? = once.2[name]?) ∧
      (again.1 = last.1 ∧ ∀ name : String, again.2[name]? = last.2[name]?) ∧
      ∀ name : String, Option.Rel (Learns (Computes g steps name)) report[name]?
        (build (g, report) steps).2[name]? := by
  intro last once again
  have hbuild := (Foreruns.refl g report).build steps
  have hlast : Foreruns (g.withAdded steps) report last := by
    have hcompute := hbuild.compute
    rw [← build_concat_compute] at hcompute
    exact hcompute
  have hgraph : last.1 = once.1 := graph_build_compute g report steps
  have hreport (name : String) : last.2[name]? = once.2[name]? := by
    have hcompute := hbuild.getElem?_report_compute name
    rw [← build_concat_compute] at hcompute
    exact hcompute
  refine ⟨⟨hgraph, hreport⟩, ⟨hlast.compute_eq.trans hgraph.symm, fun name => ?_⟩, ?_⟩
  · exact (hlast.getElem?_report_compute name).trans (hreport name).symm
  · exact learns_build rfl report steps

end CallGraph

end StackSurvey
