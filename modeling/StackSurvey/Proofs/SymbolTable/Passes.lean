import StackSurvey.Dwarf.Attribution
import StackSurvey.Proofs.CallGraph.Merge

namespace StackSurvey

/-- What is done to the notes of a table. -/
inductive Pass where
  | demangle (demangle? : String → Option String)
  | locate (info : Dwarf.DebugInfo)
  | apply (report : StackReport)
  /-- One symbol name of one usage; these make up a report in whatever order it is gone through. -/
  | applyTo (function : String) (usage : StackUsage) (mangled : String)
  | merge (graph : CallGraph)

def Pass.run (t : SymbolTable) : Pass → SymbolTable
  | demangle demangle? => (t.demangleAll demangle?).1
  | locate info => (info.attributeAll t).1
  | apply report => (report.apply t).1
  | applyTo function usage mangled => (StackReport.applyTo function usage t mangled).1
  | merge graph => (graph.mergeInto t).1

namespace SymbolTable

/-- One of the ways in which a table is built up. -/
inductive Step where
  | push (s : AnnotatedSymbol)
  | pass (p : Pass)

def step (t : SymbolTable) : Step → SymbolTable
  | .push s => t.push s
  | .pass p => p.run t

def runSteps (steps : List Step) (t : SymbolTable) : SymbolTable := steps.foldl step t

/-- Two tables that differ in notes only. -/
structure Renotes (t t' : SymbolTable) : Prop where
  byName_eq : t'.byName = t.byName
  symbols_eq : t'.symbols.map (·.symbol) = t.symbols.map (·.symbol)

variable {t t' t'' : SymbolTable}

namespace Renotes

theorem refl (t : SymbolTable) : Renotes t t := ⟨rfl, rfl⟩

theorem trans (h : Renotes t t') (h' : Renotes t' t'') : Renotes t t'' :=
  ⟨h'.byName_eq.trans h.byName_eq, h'.symbols_eq.trans h.symbols_eq⟩

theorem annotate (t : SymbolTable) (place : Nat) (change : AnnotatedSymbol → Annotation) :
    Renotes t (t.annotate place change) := by
  constructor
  · rfl
  · apply Array.ext_getElem?
    intro i
    rw [Array.getElem?_map, Array.getElem?_map, getElem?_annotate, Option.map_map]
    apply congrArg (Option.map · t.symbols[i]?)
    funext s
    exact (apply_ite AnnotatedSymbol.symbol ..).trans (ite_self _)

theorem annotateAll (t : SymbolTable) (change : AnnotatedSymbol → Annotation) :
    Renotes t (t.annotateAll change) :=
  ⟨rfl, Array.map_map ..⟩

/-- A fold whose steps change notes only changes notes only. -/
theorem foldl {σ β : Type} {f : σ → β → σ} (table : σ → SymbolTable)
    (h : ∀ s x, Renotes (table s) (table (f s x))) (xs : List β) (s : σ) :
    Renotes (table s) (table (xs.foldl f s)) := by
  induction xs generalizing s with
  | nil => exact refl _
  | cons x xs ih => exact (h s x).trans (ih (f s x))

theorem nameAt?_eq (h : Renotes t t') (i : Nat) : t'.nameAt? i = t.nameAt? i := by
  have hsymbol : t'.symbols[i]?.map (·.symbol) = t.symbols[i]?.map (·.symbol) := by
    rw [← Array.getElem?_map, ← Array.getElem?_map, h.symbols_eq]
  have hname := congrArg (Option.map Symbol.name) hsymbol
  rwa [Option.map_map, Option.map_map] at hname

theorem indicesByName_eq (h : Renotes t t') : t'.indicesByName = t.indicesByName := by
  funext name
  rw [indicesByName, indicesByName, h.byName_eq]

theorem indexed (h : Renotes t t') (ht : t.Indexed) : t'.Indexed :=
  ht.of_names h.byName_eq h.nameAt?_eq

end Renotes

theorem renotes_applyTo (function : String) (usage : StackUsage) (t : SymbolTable)
    (mangled : String) : Renotes t (StackReport.applyTo function usage t mangled).1 :=
  Renotes.foldl (fun t => t) (fun t index => .annotate t index _) _ t

theorem renotes_apply (report : StackReport) (t : SymbolTable) :
    Renotes t (report.apply t).1 := by
  rw [StackReport.apply, Std.TreeMap.foldl_eq_foldl_toList]
  apply Renotes.foldl Prod.fst (s := (t, 0))
  intro state entry
  rw [Std.TreeSet.foldl_eq_foldl_toList]
  apply Renotes.foldl Prod.fst
  intro state mangled
  exact renotes_applyTo entry.1 entry.2 state.1 mangled

theorem renotes_mergeNode (graph : CallGraph) (state : SymbolTable × Nat) (node : CallNode) :
    Renotes state.1 (graph.mergeNode state node).1 := by
  rw [CallGraph.mergeNode]
  split
  · exact .refl _
  · apply Renotes.foldl Prod.fst
    intro state place
    rw [CallGraph.fst_mergeAt]
    exact .annotate ..

theorem renotes_mergeInto (graph : CallGraph) (t : SymbolTable) :
    Renotes t (graph.mergeInto t).1 := by
  rw [CallGraph.mergeInto, ← Array.foldl_toList]
  exact Renotes.foldl Prod.fst (renotes_mergeNode graph) _ (t, 0)

theorem renotes_run (t : SymbolTable) (p : Pass) : Renotes t (p.run t) := by
  cases p with
  | demangle demangle? => exact .annotateAll ..
  | locate info => exact .annotateAll ..
  | apply report => exact renotes_apply report t
  | applyTo function usage mangled => exact renotes_applyTo function usage t mangled
  | merge graph => exact renotes_mergeInto graph t

theorem Indexed.step (h : t.Indexed) (s : Step) : (t.step s).Indexed := by
  cases s with
  | push s => exact h.push s
  | pass p => exact (renotes_run t p).indexed h

theorem Indexed.runSteps (h : t.Indexed) (steps : List Step) : (runSteps steps t).Indexed := by
  induction steps generalizing t with
  | nil => exact h
  | cons s steps ih => exact ih (h.step s)

/-- In every table that pushes and passes lead to, a name has the places of the symbols that carry
it, in order, and whatever pass comes next keeps all that the file says of the symbols. -/
theorem indicesByName_runSteps (sectionCount : Nat) (steps : List Step) :
    let t := runSteps steps (.empty sectionCount)
    (∀ name, t.indicesByName name =
      (List.range t.size).filter fun i => t.symbols[i]?.map (·.symbol.name) == some name) ∧
      ∀ p : Pass, (p.run t).symbols.map (·.symbol) = t.symbols.map (·.symbol) := by
  intro t
  constructor
  · exact (indexed_empty sectionCount).runSteps steps
  · intro p
    exact (renotes_run t p).symbols_eq

end SymbolTable

end StackSurvey
