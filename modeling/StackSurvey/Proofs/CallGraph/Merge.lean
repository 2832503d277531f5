import Mathlib.Tactic.Tauto
import StackSurvey.CallGraph.Compute
import StackSurvey.Proofs.CallGraph.Notes
import StackSurvey.Proofs.SymbolTable.NameIndex

namespace StackSurvey.CallGraph

variable {g : CallGraph} {t : SymbolTable} {node : CallNode} {callees : List String}
  {name : String} {i : Nat}

/-- True of the functions that a merge tells of: those with a stack or with recursion. -/
def isTold (node : CallNode) : Bool := node.graphStack ≠ 0 || node.recursion.isRecursive

def calleeNames (g : CallGraph) (node : CallNode) : List String :=
  node.callees.filterMap fun callee => g.nodes[callee]?.map (·.mangledName)

/-- What a function tells of a name: itself with the names of its callees, if it carries the
name. -/
def tidingsOf (g : CallGraph) (node : CallNode) (name : String) : List (CallNode × List String) :=
  if isTold node ∧ node.mangledName = name then [(node, g.calleeNames node)] else []

def tidings (g : CallGraph) (name : String) : List (CallNode × List String) :=
  g.nodes.toList.flatMap (g.tidingsOf · name)

/-- The table after merging graphs one after the other. -/
def mergeAll (graphs : List CallGraph) (t : SymbolTable) : SymbolTable :=
  graphs.foldl (fun t g => (g.mergeInto t).1) t

/-- The notes on a symbol with what is told of its name. -/
def noted (told : String → List (CallNode × List String)) (s : AnnotatedSymbol) : Annotation :=
  noteAll s.notes (told s.symbol.name)

theorem mergeAt_of_some {count place : Nat} {s : AnnotatedSymbol}
    (hs : t.symbols[place]? = some s) :
    mergeAt node callees (t, count) place =
      (t.annotate place fun _ => noteNode node callees s.notes,
        if differs s.notes (noteNode node callees s.notes) then count + 1 else count) := by
  simp only [mergeAt, hs]

theorem mergeAt_of_none {count place : Nat} (hs : t.symbols[place]? = none) :
    mergeAt node callees (t, count) place = (t, count) := by
  simp only [mergeAt, hs]

theorem fst_mergeAt (state : SymbolTable × Nat) (place : Nat) :
    (mergeAt node callees state place).1 =
      state.1.annotate place fun s => noteNode node callees s.notes := by
  obtain ⟨t, count⟩ := state
  cases hs : t.symbols[place]? with
  | none =>
    rw [mergeAt_of_none hs]
    exact (SymbolTable.annotate_eq_self fun s hs' => by cases hs.symm.trans hs').symm
  | some s =>
    rw [mergeAt_of_some hs]
    refine SymbolTable.annotate_congr fun s' hs' => ?_
    cases hs.symm.trans hs'
    rfl

theorem fst_foldl_mergeAt (places : List Nat) (state : SymbolTable × Nat) :
    (places.foldl (mergeAt node callees) state).1 =
      places.foldl (fun t place => t.annotate place fun s => noteNode node callees s.notes)
        state.1 := by
  induction places generalizing state with
  | nil => rfl
  | cons place places ih => rw [List.foldl_cons, ih, fst_mergeAt, List.foldl_cons]

theorem noted_tidingsOf (g : CallGraph) (node : CallNode) (s : AnnotatedSymbol) :
    noted (g.tidingsOf node) s =
      if isTold node ∧ node.mangledName = s.symbol.name then
        noteNode node (g.calleeNames node) s.notes
      else s.notes := by
  unfold noted tidingsOf
  split <;> rfl

/-- Merging a function tells its name of it. -/
theorem fst_mergeNode {state : SymbolTable × Nat} (h : state.1.Indexed) (node : CallNode) :
    (g.mergeNode state node).1 = state.1.annotateAll (noted (g.tidingsOf node)) := by
  unfold mergeNode
  split
  · rename_i huntold
    have hfalse : isTold node = false := by simpa [isTold] using huntold
    refine SymbolTable.ext_symbols (fun i => ?_) rfl rfl
    simp [SymbolTable.getElem?_annotateAll, noted_tidingsOf, hfalse]
  · rename_i huntold
    have htrue : isTold node = true := by
      simpa [isTold, Decidable.or_iff_not_imp_left] using huntold
    refine (fst_foldl_mergeAt ..).trans ?_
    rw [SymbolTable.foldl_annotate_indicesByName h fun s => noteNode_noteNode ..]
    congr 1
    funext s
    rw [noted_tidingsOf]
    simp only [htrue, true_and, eq_comm (a := node.mangledName)]
    rfl

/-- Steps that each tell every symbol something tell it all of it in the end. -/
theorem foldl_eq_annotateAll_noted {σ β : Type} (table : σ → SymbolTable) {step : σ → β → σ}
    (told : β → String → List (CallNode × List String))
    (hstep : ∀ s x, (table s).Indexed → table (step s x) = (table s).annotateAll (noted (told x)))
    (xs : List β) {s : σ} (h : (table s).Indexed) :
    table (xs.foldl step s) =
      (table s).annotateAll (noted fun name => xs.flatMap (told · name)) := by
  rw [SymbolTable.foldl_eq_annotateAll table (fun x => noted (told x)) hstep xs h]
  congr 1
  funext s
  rw [noted, noteAll, List.foldl_flatMap]
  rfl

theorem fst_mergeInto (h : t.Indexed) : (g.mergeInto t).1 = t.annotateAll (noted g.tidings) := by
  have hfold := foldl_eq_annotateAll_noted Prod.fst g.tidingsOf
    (fun _ node hs => fst_mergeNode (g := g) hs node) g.nodes.toList (s := (t, 0)) h
  rw [Array.foldl_toList] at hfold
  exact hfold

/-- Merging graphs tells every symbol what they tell of its name, in turn. -/
theorem mergeAll_eq (graphs : List CallGraph) (h : t.Indexed) :
    mergeAll graphs t = t.annotateAll (noted fun name => graphs.flatMap (·.tidings name)) :=
  foldl_eq_annotateAll_noted (fun t => t) tidings (fun _ _ hs => fst_mergeInto hs) graphs h

theorem foldl_eq_self {α β : Type} {f : α → β → α} {a : α} (xs : List β)
    (h : ∀ x ∈ xs, f a x = a) : xs.foldl f a = a := by
  induction xs with
  | nil => rfl
  | cons x xs ih =>
    obtain ⟨hx, hxs⟩ := List.forall_mem_cons.1 h
    rw [List.foldl_cons, hx, ih hxs]

theorem mergeAt_eq_self {place : Nat}
    (h : ∀ s, t.symbols[place]? = some s → noteNode node callees s.notes = s.notes) :
    mergeAt node callees (t, 0) place = (t, 0) := by
  cases hs : t.symbols[place]? with
  | none => exact mergeAt_of_none hs
  | some s =>
    have hannotate : (t.annotate place fun _ => s.notes) = t := by
      refine SymbolTable.annotate_eq_self fun s' hs' => ?_
      cases hs.symm.trans hs'
      rfl
    rw [mergeAt_of_some hs, h s hs, hannotate]
    simp [differs]

/-- A graph that has nothing to tell changes nothing, and nothing is counted. -/
theorem mergeInto_eq_self (h : t.Indexed)
    (hknown : ∀ (i : Nat) s, t.symbols[i]? = some s →
      ∀ x ∈ g.tidings s.symbol.name, noteNode x.1 x.2 s.notes = s.notes) :
    g.mergeInto t = (t, 0) := by
  rw [mergeInto, ← Array.foldl_toList]
  refine foldl_eq_self _ fun node hnode => ?_
  unfold mergeNode
  split
  · rfl
  · rename_i huntold
    have htrue : isTold node = true := by
      simpa [isTold, Decidable.or_iff_not_imp_left] using huntold
    refine foldl_eq_self _ fun place hplace => mergeAt_eq_self fun s hs => ?_
    obtain ⟨s', hs', hname⟩ := (SymbolTable.mem_indicesByName h).1 hplace
    cases hs.symm.trans hs'
    have htidings : (node, g.calleeNames node) ∈ g.tidings s.symbol.name := by
      refine List.mem_flatMap.2 ⟨node, hnode, ?_⟩
      rw [tidingsOf, if_pos ⟨htrue, hname.symm⟩]
      exact List.mem_singleton_self _
    exact hknown place s hs _ htidings

/-- One of some graphs has a function with a name, and the function has a stack or recursion. -/
structure Tells (graphs : List CallGraph) (name : String) (g : CallGraph) (node : CallNode) :
    Prop where
  graph_mem : g ∈ graphs
  node_mem : node ∈ g.nodes
  mangledName_eq : node.mangledName = name
  told : 0 < node.graphStack ∨ node.recursion.isRecursive

/-- What merging graphs makes of a symbol. -/
structure Merged (graphs : List CallGraph) (s merged : AnnotatedSymbol) : Prop where
  symbol : merged.symbol = s.symbol
  recursion : IsGreatest
    {r | r = s.notes.recursion.rank ∨
      ∃ g node, Tells graphs s.symbol.name g node ∧ r = node.recursion.rank}
    merged.notes.recursion.rank
  worst : IsGreatest
    {stack | stack = s.notes.worst ∨
      ∃ g node, Tells graphs s.symbol.name g node ∧ stack = node.graphStack}
    merged.notes.worst
  callees : ∀ name, name ∈ merged.notes.callees ↔ name ∈ s.notes.callees ∨
    ∃ g node, Tells graphs s.symbol.name g node ∧
      ∃ callee ∈ node.callees, ∃ target, g.nodes[callee]? = some target ∧
        target.mangledName = name
  unnamed : (∀ g ∈ graphs, ∀ node ∈ g.nodes, node.mangledName ≠ s.symbol.name) → merged = s

/-- Notes that agree on recursion, worst case and the set of callees. -/
structure Agree (a b : Annotation) : Prop where
  recursion : a.recursion = b.recursion
  graphStack : a.graphStack = b.graphStack
  callees : ∀ name, name ∈ a.callees ↔ name ∈ b.callees

variable {graphs : List CallGraph} {s : AnnotatedSymbol}

theorem mem_tidings {x : CallNode × List String} :
    x ∈ g.tidings name ↔
      ∃ node ∈ g.nodes, (isTold node ∧ node.mangledName = name) ∧
        x = (node, g.calleeNames node) := by
  rw [tidings, List.mem_flatMap]
  simp only [Array.mem_toList_iff]
  refine exists_congr fun node => and_congr_right fun _ => ?_
  rw [tidingsOf]
  split <;> simp_all

theorem exists_mem_tidings (graphs : List CallGraph) (name : String)
    (p : CallNode → List String → Prop) :
    (∃ x ∈ graphs.flatMap (·.tidings name), p x.1 x.2) ↔
      ∃ g node, Tells graphs name g node ∧ p node (g.calleeNames node) := by
  constructor
  · rintro ⟨x, hx, hp⟩
    obtain ⟨g, hg, hx⟩ := List.mem_flatMap.1 hx
    obtain ⟨node, hnode, ⟨htold, hname⟩, rfl⟩ := mem_tidings.1 hx
    have htold : 0 < node.graphStack ∨ node.recursion.isRecursive := by
      simpa [isTold, Nat.pos_iff_ne_zero] using htold
    exact ⟨g, node, ⟨hg, hnode, hname, htold⟩, hp⟩
  · rintro ⟨g, node, h, hp⟩
    have htold : isTold node = true := by
      simpa [isTold, Nat.pos_iff_ne_zero] using h.told
    exact ⟨_, List.mem_flatMap.2
      ⟨g, h.graph_mem, mem_tidings.2 ⟨node, h.node_mem, ⟨htold, h.mangledName_eq⟩, rfl⟩⟩, hp⟩

theorem mem_calleeNames :
    name ∈ g.calleeNames node ↔
      ∃ callee ∈ node.callees, ∃ target, g.nodes[callee]? = some target ∧
        target.mangledName = name := by
  simp only [calleeNames, List.mem_filterMap, Option.map_eq_some_iff]

/-- What a symbol is told are the figures of the functions with its name. -/
theorem merged_noted (graphs : List CallGraph) (s : AnnotatedSymbol) :
    Merged graphs s
      { s with notes := noted (fun name => graphs.flatMap (·.tidings name)) s } where
  symbol := rfl
  recursion := by
    have htold (r : Nat) := exists_mem_tidings graphs s.symbol.name fun node _ =>
      r = node.recursion.rank
    simp only [← htold]
    exact isGreatest_rank_noteAll ..
  worst := by
    have htold (stack : WithBot Nat) := exists_mem_tidings graphs s.symbol.name fun node _ =>
      stack = node.graphStack
    simp only [← htold]
    exact isGreatest_worst_noteAll ..
  callees name := by
    simp only [← mem_calleeNames]
    rw [← exists_mem_tidings graphs s.symbol.name fun _ names => name ∈ names]
    exact mem_callees_noteAll
  unnamed h := by
    have hnone : graphs.flatMap (·.tidings s.symbol.name) = [] := by
      refine List.eq_nil_iff_forall_not_mem.2 fun x hx => ?_
      obtain ⟨g, hg, hx⟩ := List.mem_flatMap.1 hx
      obtain ⟨node, hnode, ⟨_, hname⟩, _⟩ := mem_tidings.1 hx
      exact h g hg node hnode hname
    rw [noted, hnone]
    rfl

theorem Tells.congr {graphs' : List CallGraph} (h : ∀ g, g ∈ graphs' ↔ g ∈ graphs) :
    Tells graphs' name g node ↔ Tells graphs name g node :=
  ⟨fun ⟨hg, h₁, h₂, h₃⟩ => ⟨(h g).1 hg, h₁, h₂, h₃⟩,
    fun ⟨hg, h₁, h₂, h₃⟩ => ⟨(h g).2 hg, h₁, h₂, h₃⟩⟩

theorem Merged.agree {graphs' : List CallGraph} {a b : AnnotatedSymbol} (ha : Merged graphs s a)
    (hb : Merged graphs' s b) (h : ∀ g, g ∈ graphs' ↔ g ∈ graphs) : Agree a.notes b.notes where
  recursion := by
    have hrecursion := hb.recursion
    simp only [Tells.congr h] at hrecursion
    exact Recursion.rank_injective (ha.recursion.unique hrecursion)
  graphStack := by
    have hworst := hb.worst
    simp only [Tells.congr h] at hworst
    exact ha.worst.unique hworst
  callees name := by
    rw [ha.callees, hb.callees]
    simp only [Tells.congr h]

/-- Symbols end with the greatest figures among their own and those of the functions with their
names, whatever the order of the graphs; graphs that have been merged have nothing more to tell. -/
theorem merged_mergeAll (sectionCount : Nat) (symbols : List AnnotatedSymbol)
    (graphs : List CallGraph) :
    let t := SymbolTable.ofSymbols sectionCount symbols
    (mergeAll graphs t).size = symbols.length ∧
      (∀ (i : Nat) s, symbols[i]? = some s →
        ∃ s', (mergeAll graphs t).symbols[i]? = some s' ∧ Merged graphs s s') ∧
      (∀ graphs', (∀ g, g ∈ graphs' ↔ g ∈ graphs) → ∀ (i : Nat) s s',
        (mergeAll graphs t).symbols[i]? = some s → (mergeAll graphs' t).symbols[i]? = some s' →
          Agree s.notes s'.notes) ∧
      ∀ g ∈ graphs, g.mergeInto (mergeAll graphs t) = (mergeAll graphs t, 0) := by
  intro t
  have ht : t.Indexed := SymbolTable.indexed_ofSymbols sectionCount symbols
  have hget (graphs : List CallGraph) (i : Nat) : (mergeAll graphs t).symbols[i]? =
      symbols[i]?.map fun s =>
        { s with notes := noted (fun name => graphs.flatMap (·.tidings name)) s } := by
    rw [mergeAll_eq graphs ht, SymbolTable.getElem?_annotateAll,
      SymbolTable.getElem?_symbols_ofSymbols]
  refine ⟨?_, ?_, ?_, ?_⟩
  · have hsymbols : (mergeAll graphs t).size = t.size := by
      rw [mergeAll_eq graphs ht]
      exact Array.size_map
    rw [hsymbols, SymbolTable.size_ofSymbols]
  · intro i s hs
    refine ⟨_, ?_, merged_noted graphs s⟩
    rw [hget, hs, Option.map_some]
  · intro graphs' hmem i s s' hs hs'
    rw [hget, Option.map_eq_some_iff] at hs hs'
    obtain ⟨s₀, hs₀, rfl⟩ := hs
    obtain ⟨s₁, hs₁, rfl⟩ := hs'
    cases hs₀.symm.trans hs₁
    exact (merged_noted graphs s₀).agree (merged_noted graphs' s₀) hmem
  · intro g hg
    have hindexed : (mergeAll graphs t).Indexed := by
      rw [mergeAll_eq graphs ht]
      exact ht.annotateAll _
    refine mergeInto_eq_self hindexed fun i s hs x hx => ?_
    rw [hget, Option.map_eq_some_iff] at hs
    obtain ⟨s₀, _, rfl⟩ := hs
    exact noteNode_noteAll s₀.notes (List.mem_flatMap.2 ⟨g, hg, hx⟩)

/-- A function that calls itself and another one. -/
def selfCaller : CallGraph :=
  let call (symbolNumber : Nat) : Call := { name := "f", symbolNumber }
  (((({} : CallGraph).addNode
    { mangledName := "f", symbolNumber := 1, localStack := 16, calls := [call 1, call 2] }).addNode
    { mangledName := "g", symbolNumber := 2, localStack := 8 }).compute ∅).1

/-- A function of the same name that calls nothing and has a greater stack. -/
def deepLeaf : CallGraph :=
  ((({} : CallGraph).addNode
    { mangledName := "f", symbolNumber := 1, localStack := 64 }).compute ∅).1

theorem merged_mergeAll_sharedName :
    let f : AnnotatedSymbol := { symbol := { name := "f" } }
    let t := SymbolTable.ofSymbols 1 [f, f]
    let graphs := [selfCaller, deepLeaf]
    let graphs' := [deepLeaf, selfCaller, deepLeaf]
    [f, f][1]? = some f ∧ (∀ g, g ∈ graphs' ↔ g ∈ graphs) ∧ selfCaller ∈ graphs ∧
      ∃ s s', (mergeAll graphs t).symbols[1]? = some s ∧ Merged graphs f s ∧
        (mergeAll graphs' t).symbols[1]? = some s' ∧ Agree s.notes s'.notes ∧
          selfCaller.mergeInto (mergeAll graphs t) = (mergeAll graphs t, 0) := by
  intro f t graphs graphs'
  have hmem (g : CallGraph) : g ∈ graphs' ↔ g ∈ graphs := by
    simp only [graphs, graphs', List.mem_cons, List.not_mem_nil, or_false]
    tauto
  obtain ⟨_, hmerged, hagree, hagain⟩ := merged_mergeAll 1 [f, f] graphs
  obtain ⟨s, hs, hf⟩ := hmerged 1 f rfl
  obtain ⟨_, hmerged', _⟩ := merged_mergeAll 1 [f, f] graphs'
  obtain ⟨s', hs', _⟩ := hmerged' 1 f rfl
  exact ⟨rfl, hmem, List.mem_cons_self, s, s', hs, hf, hs', hagree graphs' hmem 1 s s' hs hs',
    hagain selfCaller List.mem_cons_self⟩

end StackSurvey.CallGraph
