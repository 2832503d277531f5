import Mathlib.Algebra.Order.Monoid.Unbundled.WithTop
import Mathlib.Order.Lattice.Nat
import StackSurvey.CallGraph.Dump
import StackSurvey.Proofs.CallGraph.Merge
import StackSurvey.Proofs.SymbolTable.Passes

namespace StackSurvey

/-- The frame size that is noted; none is below every size. -/
def Annotation.frame (notes : Annotation) : WithBot Nat := notes.localStack

namespace CallGraph

/-- The functions with a name that a merge tells of, in order. -/
def told (g : CallGraph) (name : String) : List CallNode :=
  g.nodes.toList.filter fun node => isTold node && node.mangledName == name

/-- The functions whose stack is above all before them and above `worst`. -/
def raising (worst : WithBot Nat) : List CallNode → List CallNode
  | [] => []
  | node :: nodes =>
    if worst < node.graphStack then node :: raising node.graphStack nodes else raising worst nodes

/-- The frame size of a function that is known to have one. -/
def frame? (node : CallNode) : Option Nat :=
  if 0 < node.localStack then some node.localStack else none

/-- What the functions that a symbol is told of make of its figures. -/
structure Raised (nodes : List CallNode) (before after : Annotation) : Prop where
  recursion_le : before.recursion.rank ≤ after.recursion.rank
  worst_le : before.worst ≤ after.worst
  localStack_eq : after.localStack =
    ((raising before.worst nodes).filterMap frame?).getLast?.or before.localStack
  localStack_of_worst : after.worst = before.worst → after.localStack = before.localStack

variable {g : CallGraph} {name : String} {notes : Annotation} {node : CallNode}
  {callees : List String}

theorem map_fst_tidings (g : CallGraph) (name : String) :
    (g.tidings name).map Prod.fst = g.told name := by
  rw [tidings, told]
  induction g.nodes.toList with
  | nil => rfl
  | cons node nodes ih =>
    rw [List.flatMap_cons, List.map_append, ih, List.filter_cons, tidingsOf]
    by_cases h : isTold node = true ∧ node.mangledName = name
    · rw [if_pos h, if_pos (by simpa using h)]
      rfl
    · rw [if_neg h, if_neg (by simpa using h)]
      rfl

theorem lt_worst_iff : notes.worst < node.graphStack ↔
    notes.graphStack.all (· < node.graphStack) = true := by
  cases hstack : notes.graphStack with
  | none =>
    have hworst : notes.worst = ⊥ := hstack
    rw [hworst]
    exact iff_of_true (WithBot.bot_lt_coe node.graphStack) rfl
  | some stack =>
    have hworst : notes.worst = (stack : Nat) := hstack
    rw [hworst, Option.all_some, decide_eq_true_iff]
    exact WithBot.coe_lt_coe

theorem localStack_noteNode_of_lt (h : notes.worst < node.graphStack) :
    (noteNode node callees notes).localStack = (frame? node).or notes.localStack := by
  change (noteWorst notes node).localStack = _
  rw [noteWorst, if_pos (lt_worst_iff.1 h), frame?]
  split <;> rfl

theorem localStack_noteNode_of_not_lt (h : ¬ notes.worst < node.graphStack) :
    (noteNode node callees notes).localStack = notes.localStack := by
  change (noteWorst notes node).localStack = _
  rw [noteWorst, if_neg (mt lt_worst_iff.2 h)]

theorem localStack_noteAll (notes : Annotation) (heard : List (CallNode × List String)) :
    (noteAll notes heard).localStack =
      ((raising notes.worst (heard.map Prod.fst)).filterMap frame?).getLast?.or
        notes.localStack := by
  -- A function raises the worst case at its turn or never, whatever is told later.
  induction heard generalizing notes with
  | nil => rfl
  | cons tiding heard ih =>
    obtain ⟨node, callees⟩ := tiding
    have hrest := ih (noteNode node callees notes)
    rw [noteAll, List.foldl_cons]
    change (noteAll _ heard).localStack = _
    rw [hrest, worst_noteNode, List.map_cons, raising]
    by_cases h : notes.worst < node.graphStack
    · rw [if_pos h, max_eq_right h.le, localStack_noteNode_of_lt h]
      cases hframe : frame? node with
      | none => rw [List.filterMap_cons_none hframe, Option.none_or]
      | some size =>
        rw [List.filterMap_cons_some hframe, List.getLast?_cons]
        cases ((raising node.graphStack (heard.map Prod.fst)).filterMap frame?).getLast? <;> rfl
    · rw [if_neg h, max_eq_left (not_lt.1 h), localStack_noteNode_of_not_lt h]

theorem raising_eq_nil {worst : WithBot Nat} {nodes : List CallNode}
    (h : ∀ node ∈ nodes, node.graphStack ≤ worst) : raising worst nodes = [] := by
  induction nodes with
  | nil => rfl
  | cons node nodes ih =>
    obtain ⟨hnode, h⟩ := List.forall_mem_cons.1 h
    rw [raising, if_neg (not_lt.2 hnode), ih h]

theorem raised_noteAll (notes : Annotation) (heard : List (CallNode × List String)) :
    Raised (heard.map Prod.fst) notes (noteAll notes heard) where
  recursion_le := (isGreatest_rank_noteAll notes heard).2 (.inl rfl)
  worst_le := (isGreatest_worst_noteAll notes heard).2 (.inl rfl)
  localStack_eq := localStack_noteAll notes heard
  localStack_of_worst hworst := by
    -- Where the worst case stays, no function is above it, so none brings its frame.
    have hbound : ∀ node ∈ heard.map Prod.fst, (node.graphStack : WithBot Nat) ≤ notes.worst := by
      refine List.forall_mem_map.2 fun tiding htiding => ?_
      rw [← hworst]
      exact (isGreatest_worst_noteAll notes heard).2 (.inr ⟨tiding, htiding, rfl⟩)
    rw [localStack_noteAll, raising_eq_nil hbound]
    rfl

/-- Merging a graph lowers neither the recursion class nor the worst case of a symbol. Its frame
size becomes that of the last function that raises the worst case and has a frame, be it smaller
than the one before, and stays where the worst case stays. -/
theorem figures_mergeInto (sectionCount : Nat) (steps : List SymbolTable.Step) (g : CallGraph)
    (i : Nat) {s : AnnotatedSymbol}
    (hs : (SymbolTable.runSteps steps (.empty sectionCount)).symbols[i]? = some s) :
    ∃ s', (g.mergeInto (SymbolTable.runSteps steps (.empty sectionCount))).1.symbols[i]? =
        some s' ∧
      Raised (g.told s.symbol.name) s.notes s'.notes := by
  have hindexed := (SymbolTable.indexed_empty sectionCount).runSteps steps
  refine ⟨{ s with notes := noted g.tidings s }, ?_, ?_⟩
  · rw [fst_mergeInto hindexed, SymbolTable.getElem?_annotateAll, hs, Option.map_some]
  · rw [← map_fst_tidings]
    exact raised_noteAll s.notes (g.tidings s.symbol.name)

/-- The call graph and the frames of a file with one function. -/
def smallDump : String := "Optimized Symbol table:\nf/1 (f) @0x1\nMaterializing clones\n"

def smallFrames : StackReport := .parse "b.c:1:1:f\t12\tstatic\n"

/-- The function when its worst case is computed. -/
def smallNode : CallNode :=
  { name := "f", mangledName := "f", symbolNumber := 1, address := "@0x1", localStack := 12
    graphStack := 12 }

/-- A symbol with a larger frame. -/
def framedSymbol : AnnotatedSymbol :=
  { symbol := { name := "f" }, notes := { localStack := some 100 } }

theorem exists_parse_smallDump :
    ∃ g, parse smallDump = .ok g ∧ (g.compute smallFrames).1.nodes = #[smallNode] := by
  have hnodes : (parse smallDump).map (fun g => (g.compute smallFrames).1.nodes) =
      .ok #[smallNode] := by
    decide +kernel
  exact exists_of_map_parse hnodes

theorem raising_smallNode {g : CallGraph} (h : g.nodes = #[smallNode]) :
    raising framedSymbol.notes.worst (g.told framedSymbol.symbol.name) = [smallNode] := by
  have htold : g.told framedSymbol.symbol.name = [smallNode] := by
    rw [told, h]
    rfl
  have hraises : framedSymbol.notes.worst < smallNode.graphStack := WithBot.bot_lt_coe _
  rw [htold, raising, if_pos hraises]
  rfl

theorem figures_mergeInto_smallFrame :
    let t := SymbolTable.runSteps [.push framedSymbol] (.empty 0)
    t.symbols[0]? = some framedSymbol ∧
      ∃ g s', parse smallDump = .ok g ∧
        ((g.compute smallFrames).1.mergeInto t).1.symbols[0]? = some s' ∧
        s'.notes.localStack = some 12 ∧ s'.notes.worst ≠ framedSymbol.notes.worst := by
  intro t
  have hs : t.symbols[0]? = some framedSymbol := rfl
  obtain ⟨g, hparse, hnodes⟩ := exists_parse_smallDump
  obtain ⟨s', hs', hraised⟩ :=
    figures_mergeInto 0 [.push framedSymbol] (g.compute smallFrames).1 0 hs
  have hstack : s'.notes.localStack = some 12 := by
    rw [hraised.localStack_eq, raising_smallNode hnodes]
    rfl
  refine ⟨hs, g, s', hparse, hs', hstack, fun hworst => ?_⟩
  rw [hraised.localStack_of_worst hworst] at hstack
  exact absurd hstack (by decide)

/-- A frame size is replaced by a smaller one. -/
theorem not_frame_le_mergeInto :
    ∃ g s', parse smallDump = .ok g ∧
      ((g.compute smallFrames).1.mergeInto (.ofSymbols 0 [framedSymbol])).1.symbols[0]? =
        some s' ∧
      s'.notes.localStack = some 12 ∧ ¬ framedSymbol.notes.frame ≤ s'.notes.frame := by
  have hindexed := SymbolTable.indexed_ofSymbols 0 [framedSymbol]
  obtain ⟨g, hparse, hnodes⟩ := exists_parse_smallDump
  let computed := (g.compute smallFrames).1
  have hstack : (noted computed.tidings framedSymbol).localStack = some 12 := by
    rw [noted, localStack_noteAll, map_fst_tidings, raising_smallNode hnodes]
    rfl
  refine ⟨g, { framedSymbol with notes := noted computed.tidings framedSymbol }, hparse, ?_,
    hstack, ?_⟩
  · rw [fst_mergeInto hindexed, SymbolTable.getElem?_annotateAll]
    rfl
  · have hbefore : framedSymbol.notes.frame = (100 : Nat) := rfl
    have hafter : (noted computed.tidings framedSymbol).frame = (12 : Nat) := hstack
    rw [hbefore, hafter]
    exact fun hle => absurd (WithBot.coe_le_coe.1 hle) (by decide)

end CallGraph

end StackSurvey
