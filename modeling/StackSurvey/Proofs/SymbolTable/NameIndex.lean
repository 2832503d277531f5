import StackSurvey.SymbolTable

namespace StackSurvey.SymbolTable

variable {t t' : SymbolTable}

def nameAt? (t : SymbolTable) (i : Nat) : Option String := t.symbols[i]?.map (·.symbol.name)

/-- A name leads to the places of the symbols that carry it, in order. -/
def Indexed (t : SymbolTable) : Prop :=
  ∀ name, t.indicesByName name = (List.range t.size).filter fun i => t.nameAt? i == some name

/-- The table that symbols are pushed to one after the other. -/
def ofSymbols (sectionCount : Nat) (symbols : List AnnotatedSymbol) : SymbolTable :=
  symbols.foldl push (.empty sectionCount)

theorem indexed_empty (sectionCount : Nat) : (empty sectionCount).Indexed := by
  intro name
  exact congrArg Array.toList Std.HashMap.getD_empty

theorem Indexed.push (h : t.Indexed) (s : AnnotatedSymbol) : (t.push s).Indexed := by
  intro name
  have hsize : (t.push s).size = t.size + 1 := Array.size_push ..
  -- The places below the new one carry the names that they carried before.
  have hbefore : ((List.range t.size).filter fun i => (t.push s).nameAt? i == some name) =
      t.indicesByName name := by
    rw [h name]
    refine List.filter_congr fun i hi => ?_
    have hne : i ≠ t.symbols.size := Nat.ne_of_lt (List.mem_range.1 hi)
    rw [nameAt?, SymbolTable.push, Array.getElem?_push, if_neg hne]
    rfl
  have hlast : (t.push s).nameAt? t.size = some s.symbol.name := by
    rw [nameAt?, SymbolTable.push, size, Array.getElem?_push_size, Option.map_some]
  rw [hsize, List.range_succ, List.filter_append, hbefore, List.filter_cons, List.filter_nil, hlast,
    indicesByName, SymbolTable.push, Std.HashMap.getD_alter]
  by_cases hname : s.symbol.name = name
  · subst name
    simp [indicesByName, Std.HashMap.getD_eq_getD_getElem?]
  · simp [hname, indicesByName]

theorem indexed_foldl_push (symbols : List AnnotatedSymbol) (h : t.Indexed) :
    (symbols.foldl SymbolTable.push t).Indexed := by
  induction symbols generalizing t with
  | nil => exact h
  | cons s symbols ih => exact ih (h.push s)

theorem indexed_ofSymbols (sectionCount : Nat) (symbols : List AnnotatedSymbol) :
    (ofSymbols sectionCount symbols).Indexed :=
  indexed_foldl_push symbols (indexed_empty sectionCount)

theorem toList_symbols_foldl_push (symbols : List AnnotatedSymbol) (t : SymbolTable) :
    (symbols.foldl push t).symbols.toList = t.symbols.toList ++ symbols := by
  induction symbols generalizing t with
  | nil => rw [List.foldl_nil, List.append_nil]
  | cons s symbols ih =>
    rw [List.foldl_cons, ih, push, Array.toList_push, List.append_assoc, List.singleton_append]

theorem toList_symbols_ofSymbols (sectionCount : Nat) (symbols : List AnnotatedSymbol) :
    (ofSymbols sectionCount symbols).symbols.toList = symbols := by
  rw [ofSymbols, toList_symbols_foldl_push]
  rfl

theorem sectionCount_foldl_push (symbols : List AnnotatedSymbol) (t : SymbolTable) :
    (symbols.foldl push t).sectionCount = t.sectionCount := by
  induction symbols generalizing t with
  | nil => rfl
  | cons s symbols ih => exact ih (t.push s)

theorem sectionCount_ofSymbols (sectionCount : Nat) (symbols : List AnnotatedSymbol) :
    (ofSymbols sectionCount symbols).sectionCount = sectionCount :=
  sectionCount_foldl_push symbols _

theorem getElem?_symbols_ofSymbols (sectionCount : Nat) (symbols : List AnnotatedSymbol) (i : Nat) :
    (ofSymbols sectionCount symbols).symbols[i]? = symbols[i]? := by
  rw [← Array.getElem?_toList, toList_symbols_ofSymbols]

theorem size_ofSymbols (sectionCount : Nat) (symbols : List AnnotatedSymbol) :
    (ofSymbols sectionCount symbols).size = symbols.length := by
  rw [size, ← Array.length_toList, toList_symbols_ofSymbols]

theorem mem_indicesByName (h : t.Indexed) {name : String} {i : Nat} :
    i ∈ t.indicesByName name ↔ ∃ s, t.symbols[i]? = some s ∧ s.symbol.name = name := by
  rw [h name, List.mem_filter, List.mem_range, beq_iff_eq, nameAt?, Option.map_eq_some_iff]
  constructor
  · exact And.right
  · rintro ⟨s, hs, hname⟩
    exact ⟨(Array.getElem?_eq_some_iff.1 hs).1, s, hs, hname⟩

theorem ext_symbols (hsymbols : ∀ i : Nat, t.symbols[i]? = t'.symbols[i]?)
    (hcount : t.sectionCount = t'.sectionCount) (hindex : t.byName = t'.byName) : t = t' := by
  have heq : t.symbols = t'.symbols := Array.ext_getElem? hsymbols
  cases t
  cases t'
  subst heq hcount hindex
  rfl

theorem getElem?_annotate (t : SymbolTable) (place i : Nat)
    (change : AnnotatedSymbol → Annotation) :
    (t.annotate place change).symbols[i]? =
      t.symbols[i]?.map fun s => if i = place then { s with notes := change s } else s := by
  rw [annotate, Array.getElem?_modify]
  by_cases hi : place = i
  · subst place
    simp
  · simp [hi, Ne.symm hi]

theorem annotate_congr {place : Nat} {change change' : AnnotatedSymbol → Annotation}
    (h : ∀ s, t.symbols[place]? = some s → change s = change' s) :
    t.annotate place change = t.annotate place change' := by
  refine ext_symbols (fun i => ?_) rfl rfl
  rw [getElem?_annotate, getElem?_annotate]
  cases hs : t.symbols[i]? with
  | none => rfl
  | some s =>
    by_cases hi : i = place
    · subst i
      simp [h s hs]
    · simp [hi]

theorem annotate_eq_self {place : Nat} {change : AnnotatedSymbol → Annotation}
    (h : ∀ s, t.symbols[place]? = some s → change s = s.notes) : t.annotate place change = t := by
  rw [annotate_congr h]
  refine ext_symbols (fun i => ?_) rfl rfl
  rw [getElem?_annotate]
  simp

theorem getElem?_annotateAll (t : SymbolTable) (i : Nat) (change : AnnotatedSymbol → Annotation) :
    (t.annotateAll change).symbols[i]? =
      t.symbols[i]?.map fun s => { s with notes := change s } := by
  rw [annotateAll, Array.getElem?_map]

/-- Changes that keep the name of every symbol keep the index. -/
theorem Indexed.of_names (h : t.Indexed) (hindex : t'.byName = t.byName)
    (hnames : ∀ i, t'.nameAt? i = t.nameAt? i) : t'.Indexed := by
  have hsize : t'.size = t.size := by
    have hsymbols : t'.symbols.map (·.symbol.name) = t.symbols.map (·.symbol.name) := by
      apply Array.ext_getElem?
      intro i
      rw [Array.getElem?_map, Array.getElem?_map]
      exact hnames i
    have hsizes := congrArg Array.size hsymbols
    rwa [Array.size_map, Array.size_map] at hsizes
  intro name
  rw [indicesByName, hindex, hsize]
  simp only [hnames]
  exact h name

theorem annotateAll_eq_self {change : AnnotatedSymbol → Annotation}
    (h : ∀ (i : Nat) s, t.symbols[i]? = some s → change s = s.notes) :
    t.annotateAll change = t := by
  refine ext_symbols (fun i => ?_) rfl rfl
  rw [getElem?_annotateAll]
  cases hs : t.symbols[i]? with
  | none => rfl
  | some s => rw [Option.map_some, h i s hs]

/-- Changes that may as well be made twice, at some places one after the other. -/
theorem getElem?_foldl_annotate {change : AnnotatedSymbol → Annotation}
    (hagain : ∀ s, change { s with notes := change s } = change s) (places : List Nat)
    (t : SymbolTable) (i : Nat) :
    (places.foldl (fun t place => t.annotate place change) t).symbols[i]? =
      t.symbols[i]?.map fun s => if i ∈ places then { s with notes := change s } else s := by
  induction places generalizing t with
  | nil => simp
  | cons place places ih =>
    rw [List.foldl_cons, ih, getElem?_annotate, Option.map_map]
    congr 1
    funext s
    by_cases hi : i = place
    · simp [hi, hagain]
    · simp [hi]

theorem keeps_foldl_annotate (change : AnnotatedSymbol → Annotation) (places : List Nat)
    (t : SymbolTable) :
    (places.foldl (fun t place => t.annotate place change) t).sectionCount = t.sectionCount ∧
      (places.foldl (fun t place => t.annotate place change) t).byName = t.byName := by
  induction places generalizing t with
  | nil => exact ⟨rfl, rfl⟩
  | cons place places ih => exact ih (t.annotate place change)

/-- Changing the symbols at the places of a name changes those that carry it. -/
theorem foldl_annotate_indicesByName (h : t.Indexed) {change : AnnotatedSymbol → Annotation}
    (hagain : ∀ s, change { s with notes := change s } = change s) (name : String) :
    (t.indicesByName name).foldl (fun t place => t.annotate place change) t =
      t.annotateAll fun s => if s.symbol.name = name then change s else s.notes := by
  obtain ⟨hcount, hindex⟩ := keeps_foldl_annotate change (t.indicesByName name) t
  refine ext_symbols (fun i => ?_) hcount hindex
  rw [getElem?_foldl_annotate hagain, getElem?_annotateAll]
  cases hs : t.symbols[i]? with
  | none => rfl
  | some s =>
    have hplace : i ∈ t.indicesByName name ↔ s.symbol.name = name := by
      rw [mem_indicesByName h, hs]
      simp
    simp only [Option.map_some, hplace]
    split <;> rfl

theorem Indexed.annotateAll (h : t.Indexed) (change : AnnotatedSymbol → Annotation) :
    (t.annotateAll change).Indexed := by
  refine h.of_names rfl fun i => ?_
  rw [nameAt?, getElem?_annotateAll, Option.map_map]
  rfl

/-- Steps that each change every symbol make all their changes to it in the end. -/
theorem foldl_eq_annotateAll {σ β : Type} (table : σ → SymbolTable) {step : σ → β → σ}
    (change : β → AnnotatedSymbol → Annotation)
    (hstep : ∀ s x, (table s).Indexed → table (step s x) = (table s).annotateAll (change x))
    (xs : List β) {s : σ} (h : (table s).Indexed) :
    table (xs.foldl step s) =
      (table s).annotateAll fun a =>
        xs.foldl (fun notes x => change x { a with notes }) a.notes := by
  induction xs generalizing s with
  | nil => exact (annotateAll_eq_self fun _ _ _ => rfl).symm
  | cons x xs ih =>
    have hx := hstep s x h
    rw [List.foldl_cons, ih (hx ▸ h.annotateAll _), hx]
    refine ext_symbols (fun i => ?_) rfl rfl
    rw [getElem?_annotateAll, getElem?_annotateAll, getElem?_annotateAll, Option.map_map]
    rfl

end StackSurvey.SymbolTable
