import Mathlib.Tactic.ByContra
import StackSurvey.Proofs.Dwarf.Attribution
import StackSurvey.Proofs.Dwarf.EntryTree
import StackSurvey.Proofs.SymbolTable.NameIndex

namespace StackSurvey.Dwarf

/-- The section indices that stand for no section: those of undefined, absolute and common
symbols. -/
def isReserved (index : Nat) : Bool := index = 0 || index = 0xfff1 || index = 0xfff2

theorem isReserved_iff {index : Nat} :
    isReserved index ↔ index = 0 ∨ index = 0xfff1 ∨ index = 0xfff2 := by
  simp only [isReserved, Bool.or_eq_true, decide_eq_true_eq, or_assoc]

/-- Attribution leaves the symbols with section indices of some kind as they are, and it counts what
it would count without them. -/
structure DebugInfo.PassesOver (d : DebugInfo) (t : SymbolTable) (p : Nat → Bool) : Prop where
  unchanged : ∀ (i : Nat) s, t.symbols[i]? = some s → p s.symbol.sectionIndex →
    (d.attributeAll t).1.symbols[i]? = some s
  uncounted : (d.attributeAll t).2 =
    (d.attributeAll (.ofSymbols t.sectionCount
      (t.symbols.toList.filter fun s => !p s.symbol.sectionIndex))).2

namespace MatchCounts

/-- The number of symbols that are counted. -/
def size (counts : MatchCounts) : Nat := counts.fromEntries + counts.fromRows + counts.unmatched

theorem size_plus (a b : MatchCounts) : (a.plus b).size = a.size + b.size := by
  simp only [size, plus]
  omega

theorem eq_empty_of_size_eq_zero {counts : MatchCounts} (h : counts.size = 0) : counts = {} := by
  obtain ⟨fromEntries, fromRows, unmatched⟩ := counts
  simp only [size] at h
  obtain ⟨⟨rfl, rfl⟩, rfl⟩ : (fromEntries = 0 ∧ fromRows = 0) ∧ unmatched = 0 := by omega
  rfl

theorem add_eq_empty_iff {attribution : Attribution} :
    ({} : MatchCounts).add attribution = {} ↔ attribution = .ineligible := by
  cases attribution <;> simp [add]

section Totals

variable {α : Type} {f : α → MatchCounts} {p : α → Bool} {items : List α}

theorem total_eq_total_filter (h : ∀ x ∈ items, p x → f x = {}) :
    total (items.map f) = total ((items.filter fun x => !p x).map f) := by
  induction items with
  | nil => rfl
  | cons x items ih =>
    obtain ⟨hx, hitems⟩ := List.forall_mem_cons.1 h
    rw [List.map_cons, total, ih hitems]
    cases hp : p x with
    | true => rw [List.filter_cons_of_neg (by simp [hp]), hx hp, empty_plus]
    | false => rw [List.filter_cons_of_pos (by simp [hp]), List.map_cons, total]

theorem size_total_filter_le (items : List α) :
    (total ((items.filter p).map f)).size ≤ (total (items.map f)).size := by
  induction items with
  | nil => exact Nat.le_refl _
  | cons x items ih =>
    rw [List.map_cons, total, size_plus]
    cases hp : p x with
    | true =>
      rw [List.filter_cons_of_pos hp, List.map_cons, total, size_plus]
      exact Nat.add_le_add_left ih _
    | false =>
      rw [List.filter_cons_of_neg (by simp [hp])]
      exact Nat.le_add_left_of_le ih

/-- Items can be left out of a total exactly if they count for nothing. -/
theorem total_filter_iff :
    total (items.map f) = total ((items.filter fun x => !p x).map f) ↔
      ∀ x ∈ items, p x → f x = {} := by
  refine ⟨fun h => ?_, total_eq_total_filter⟩
  replace h := congrArg size h
  induction items with
  | nil => exact List.forall_mem_nil _
  | cons x items ih =>
    rw [List.map_cons, total, size_plus] at h
    cases hp : p x with
    | true =>
      -- What is left of the other items counts for no more than all of them.
      have hle := size_total_filter_le (f := f) (p := fun x => !p x) items
      rw [List.filter_cons_of_neg (by simp [hp])] at h
      exact List.forall_mem_cons.2 ⟨fun _ => eq_empty_of_size_eq_zero (by omega), ih (by omega)⟩
    | false =>
      rw [List.filter_cons_of_pos (by simp [hp]), List.map_cons, total, size_plus] at h
      exact List.forall_mem_cons.2 ⟨fun htrue => absurd (hp.symm.trans htrue) Bool.false_ne_true,
        ih (by omega)⟩

end Totals

end MatchCounts

theorem SourceLookup.attribute?_eq_ineligible_iff (lookup : SourceLookup) {t : SymbolTable}
    {s : Symbol} : lookup.attribute? t s = .ineligible ↔ ¬ Eligible t.sectionCount s := by
  have heligible : Eligible t.sectionCount s ↔
      0 < s.value ∧ t.sectionIsKnown s.sectionIndex ∧ s.kind ≠ .section := eligible_iff
  rw [attribute?, heligible]
  split
  · refine ⟨fun hattribution => ?_, fun hnot => absurd ‹_› hnot⟩
    split at hattribution
    · cases hattribution
    · split at hattribution <;> cases hattribution
  · exact ⟨fun _ => ‹_›, fun _ => rfl⟩

namespace DebugInfo

variable {d : DebugInfo} {t : SymbolTable} {p : Nat → Bool}

/-- What a symbol counts for. -/
def countsFor (d : DebugInfo) (sectionCount : Nat) (s : AnnotatedSymbol) : MatchCounts :=
  ({} : MatchCounts).add
    ((Session.start d).sourceLookup.1.attribute? (.empty sectionCount) s.symbol)

theorem countsFor_eq_empty_iff {sectionCount : Nat} {s : AnnotatedSymbol} :
    d.countsFor sectionCount s = {} ↔ ¬ Eligible sectionCount s.symbol :=
  MatchCounts.add_eq_empty_iff.trans (SourceLookup.attribute?_eq_ineligible_iff _)

theorem symbols_attributeAll (d : DebugInfo) (t : SymbolTable) :
    (d.attributeAll t).1.symbols = t.symbols.map fun s =>
      { s with
        notes := ((Session.start d).sourceLookup.1.attribute? (.empty t.sectionCount)
          s.symbol).apply s.notes } :=
  rfl

theorem snd_attributeAll (d : DebugInfo) (t : SymbolTable) :
    (d.attributeAll t).2 =
      MatchCounts.total (t.symbols.toList.map (d.countsFor t.sectionCount)) := by
  have h := MatchCounts.foldl_add (t.symbols.toList.map fun s =>
    (Session.start d).sourceLookup.1.attribute? t s.symbol) {}
  rw [List.foldl_map, Array.foldl_toList, List.map_map, MatchCounts.empty_plus] at h
  exact h

theorem getElem?_attributeAll_of_not_eligible {i : Nat} {s : AnnotatedSymbol}
    (hi : t.symbols[i]? = some s) (h : ¬ Eligible t.sectionCount s.symbol) :
    (d.attributeAll t).1.symbols[i]? = some s := by
  have hsame := (SourceLookup.attribute?_eq_ineligible_iff (t := .empty t.sectionCount)
    (Session.start d).sourceLookup.1).2 h
  rw [symbols_attributeAll, Array.getElem?_map, hi, Option.map_some, hsame]
  rfl

/-- Attribution passes over the symbols with some section indices exactly if none of them can have a
source. -/
theorem passesOver_iff_forall :
    d.PassesOver t p ↔
      ∀ s ∈ t.symbols, p s.symbol.sectionIndex → ¬ Eligible t.sectionCount s.symbol := by
  have hcounts :
      (d.attributeAll t).2 =
        (d.attributeAll (.ofSymbols t.sectionCount
          (t.symbols.toList.filter fun s => !p s.symbol.sectionIndex))).2 ↔
      ∀ s ∈ t.symbols, p s.symbol.sectionIndex → ¬ Eligible t.sectionCount s.symbol := by
    rw [snd_attributeAll, snd_attributeAll, SymbolTable.sectionCount_ofSymbols,
      SymbolTable.toList_symbols_ofSymbols, MatchCounts.total_filter_iff]
    simp only [Array.mem_toList_iff, countsFor_eq_empty_iff]
  refine ⟨fun h => hcounts.1 h.uncounted, fun h => ⟨fun i s hi hp => ?_, hcounts.2 h⟩⟩
  exact getElem?_attributeAll_of_not_eligible hi (h s (Array.mem_of_getElem? hi) hp)

/-- Attribution passes over undefined symbols. It passes over all symbols outside of every section
exactly if no absolute or common symbol with a value, that is not the symbol of a section itself,
has a section index below the number of sections. -/
theorem passesOver_isReserved_iff (d : DebugInfo) (t : SymbolTable) :
    d.PassesOver t (· = 0) ∧
      (d.PassesOver t isReserved ↔
        ∀ s ∈ t.symbols, s.symbol.sectionIndex = 0xfff1 ∨ s.symbol.sectionIndex = 0xfff2 →
          s.symbol.sectionIndex < t.sectionCount →
            s.symbol.value = 0 ∨ s.symbol.kind = .section) := by
  constructor
  · refine passesOver_iff_forall.2 fun s _ hzero heligible => ?_
    exact heligible.section_ne_zero (of_decide_eq_true hzero)
  · rw [passesOver_iff_forall]
    constructor
    · intro h s hs hreserved hlt
      by_contra hother
      obtain ⟨hvalue, hkind⟩ := not_or.1 hother
      have hne : s.symbol.sectionIndex ≠ 0 := by omega
      exact h s hs (isReserved_iff.2 (.inr hreserved)) ⟨hvalue, hne, hlt, hkind⟩
    · intro h s hs hreserved heligible
      have hindex := (isReserved_iff.1 hreserved).resolve_left heligible.section_ne_zero
      rcases h s hs hindex heligible.section_lt with hvalue | hkind
      · exact heligible.value_ne_zero hvalue
      · exact heligible.kind_ne_section hkind

/-- The abbreviation of roots with a name, a directory, a line table and a low address. -/
def tabledRoot : SpelledAbbreviation :=
  .inBytes 1 0x11 true [(0x03, .string), (0x1b, .string), (0x10, .secOffset), (0x11, .addr)]
    (by decide)

/-- The abbreviation of functions with a name, a place of declaration and a range list. -/
def listedFunction : SpelledAbbreviation :=
  .inBytes 2 0x2e false [(0x03, .string), (0x3a, .data1), (0x3b, .data1), (0x55, .secOffset)]
    (by decide)

/-- A line table with one file. -/
def splitLines : ByteArray :=
  ⟨#[0x40, 0, 0, 0, 4, 0, 0x1e, 0, 0, 0, 1, 1, 1, 0xfb, 0x0e, 0x0d, 0, 1, 1, 1, 1, 0, 0, 0, 1, 0, 0,
    1, 0, 0x6d, 0x61, 0x69, 0x6e, 0x2e, 0x63, 0, 0, 0, 0, 0, 0, 9, 2, 0, 1, 0, 0, 0, 0, 0, 0, 3, 2,
    1, 0, 9, 2, 0x10, 1, 0, 0, 0, 0, 0, 0, 0, 1, 1]⟩

/-- Two ranges under the base of a unit, and one under another base. -/
def splitRanges : ByteArray :=
  ⟨#[0, 1, 0, 0, 0, 0, 0, 0, 0x20, 1, 0, 0, 0, 0, 0, 0,
    0, 3, 0, 0, 0, 0, 0, 0, 0x20, 3, 0, 0, 0, 0, 0, 0,
    0xff, 0xff, 0xff, 0xff, 0xff, 0xff, 0xff, 0xff, 0, 0x50, 0, 0, 0, 0, 0, 0,
    0x10, 0, 0, 0, 0, 0, 0, 0, 0x20, 0, 0, 0, 0, 0, 0, 0,
    0, 0, 0, 0, 0, 0, 0, 0, 0, 0, 0, 0, 0, 0, 0, 0]⟩

/-- A unit with a function that comes in ranges. -/
def splitUnit : LoneUnit where
  abbreviations := [tabledRoot, listedFunction]
  entries :=
    [1, 0x6d, 0x61, 0x69, 0x6e, 0x2e, 0x63, 0, 0x2f, 0x73, 0x72, 0x63, 0, 0, 0, 0, 0, 0, 0x10, 0, 0,
      0, 0, 0, 0, 2, 0x73, 0x70, 0x6c, 0x69, 0x74, 0, 1, 12, 0, 0, 0, 0, 0]
  others := { line := some splitLines, ranges := some splitRanges }

def splitRoot : EncodedEntry splitUnit.unit :=
  splitUnit.entry tabledRoot (.head _)
    [({ name := 0x03, form := .string }, [0x6d, 0x61, 0x69, 0x6e, 0x2e, 0x63] ++ [0]),
      ({ name := 0x1b, form := .string }, [0x2f, 0x73, 0x72, 0x63] ++ [0]),
      ({ name := 0x10, form := .secOffset }, [0, 0, 0, 0]),
      ({ name := 0x11, form := .addr }, [0, 0x10, 0, 0, 0, 0, 0, 0])]
    rfl
    (List.forall_mem_cons.2 ⟨.direct Form.noConfusion (.terminated (by decide)),
      List.forall_mem_cons.2 ⟨.direct Form.noConfusion (.terminated (by decide)),
      List.forall_mem_cons.2 ⟨.direct Form.noConfusion (.offset rfl),
      List.forall_mem_singleton.2 (.direct Form.noConfusion (.address rfl rfl))⟩⟩⟩)

def splitFunction : EncodedEntry splitUnit.unit :=
  splitUnit.entry listedFunction (.tail _ (.head _))
    [({ name := 0x03, form := .string }, [0x73, 0x70, 0x6c, 0x69, 0x74] ++ [0]),
      ({ name := 0x3a, form := .data1 }, [1]), ({ name := 0x3b, form := .data1 }, [12]),
      ({ name := 0x55, form := .secOffset }, [0, 0, 0, 0])]
    rfl
    (List.forall_mem_cons.2 ⟨.direct Form.noConfusion (.terminated (by decide)),
      List.forall_mem_cons.2 ⟨.direct Form.noConfusion (.fixed [1]),
      List.forall_mem_cons.2 ⟨.direct Form.noConfusion (.fixed [12]),
      List.forall_mem_singleton.2 (.direct Form.noConfusion (.offset rfl))⟩⟩⟩)

def splitTree : EntryTree splitUnit.unit :=
  .parent splitRoot rfl [.leaf splitFunction rfl] zeroByte

theorem holds_splitTree : splitUnit.unit.window.Holds 11 splitTree.bytes :=
  have hentries : splitUnit.entries = [] ++ (splitTree.bytes ++ []) := rfl
  splitUnit.holds_entries hentries

theorem find_splitRoot :
    splitUnit.unit.find splitUnit.unit.header.rootOffset = .ok (splitRoot.entryAt 11) :=
  DebugUnit.find_entry splitRoot (Nat.le_refl 11) (Window.holds_append.1 holds_splitTree).1

theorem entryList_splitUnit :
    splitUnit.unit.entryList =
      [splitUnit.unit.listed splitUnit.unit.resolver 0 (splitRoot.entryAt 11),
        splitUnit.unit.listed splitUnit.unit.resolver 1 (splitFunction.entryAt 36)] := by
  rw [DebugUnit.entryList, DebugUnit.walk_tree splitTree 0 (Nat.le_refl _) holds_splitTree,
    if_pos rfl, List.append_nil]
  rfl

theorem fileName?_splitUnit :
    splitUnit.unit.resolver.lineTable.get.bind (·.fileName? 1) = some "/src/main.c" := by
  change splitUnit.unit.lineTable.bind _ = _
  rw [DebugUnit.lineTable, DebugUnit.loadLineTable, find_splitRoot]
  decide +kernel

theorem base_splitUnit : splitUnit.unit.resolver.base.get = 0x1000 := by
  change splitUnit.unit.baseAddress = _
  rw [DebugUnit.baseAddress, find_splitRoot]
  decide +kernel

theorem rangeList_splitUnit :
    splitUnit.unit.rangeList 0 0x1000 =
      .ok [(0x1100, 0x1120), (0x1300, 0x1320), (0x5010, 0x5020)] := by
  decide +kernel

theorem path_splitRoot :
    (splitUnit.unit.listed splitUnit.unit.resolver 0 (splitRoot.entryAt 11)).path = none := by
  have hdeclaration : (splitRoot.entryAt 11).declaration? splitUnit.unit = none := by
    decide +kernel
  have hsource : (splitRoot.entryAt 11).pcSource splitUnit.unit = .range 0x1000 0x1001 := by
    decide +kernel
  rw [DebugUnit.listed, Entry.resolve, hdeclaration, hsource]
  rfl

theorem listed_splitFunction :
    splitUnit.unit.listed splitUnit.unit.resolver 1 (splitFunction.entryAt 36) =
      { splitFunction.entryAt 36 with
        depth := 1
        name := some "split"
        path := some "/src/main.c"
        line := 12
        pcRange := some (0x1100, 0x5020)
        ranges := [(0x1100, 0x1120), (0x1300, 0x1320), (0x5010, 0x5020)] } := by
  let e := splitFunction.entryAt 36
  have hname : e.value? splitUnit.unit .name Attribute.string = some "split" := by decide +kernel
  have hdeclaration : e.declaration? splitUnit.unit = some ⟨1, 12, 0⟩ := by decide +kernel
  have hsource : e.pcSource splitUnit.unit = .list 0 none := by decide +kernel
  rw [DebugUnit.listed, Entry.resolve, hname, hdeclaration, hsource]
  simp only [Entry.withDeclaration, fileName?_splitUnit, Entry.withPc, Option.getD_none,
    base_splitUnit, rangeList_splitUnit]
  decide +kernel

def splitInfo : DebugInfo := { sections := splitUnit.sections, units := #[splitUnit.unit] }

/-- An absolute symbol at an address of the function. -/
def absoluteSymbol : AnnotatedSymbol where
  symbol := { name := "absolute", value := 0x1100, kind := .func, sectionIndex := 0xfff1 }

/-- The symbol with the place where the function is declared. -/
def declaredSymbol : AnnotatedSymbol where
  symbol := absoluteSymbol.symbol
  notes :=
    { source := some { path := "/src/main.c", line := 12, column := none }
      fromEntries := true
      debugAddress := some 0x1100 }

/-- Where there are enough sections the symbol takes its source from the function. -/
theorem attributed_absoluteSymbol {s : AnnotatedSymbol} {counts : MatchCounts}
    (h : Attributed splitInfo 0xfff3 absoluteSymbol s counts) :
    s = declaredSymbol ∧ counts = { fromEntries := 1 } := by
  have hentries : splitInfo.units.toList.flatMap (·.entryList) =
      splitUnit.unit.entryList := List.append_nil _
  have hfunction : splitInfo.HasEntry
      (splitUnit.unit.listed splitUnit.unit.resolver 1 (splitFunction.entryAt 36)) := by
    rw [hasEntry_iff, hentries, entryList_splitUnit]
    exact .tail _ (.head _)
  have hlocates : (splitUnit.unit.listed splitUnit.unit.resolver 1
      (splitFunction.entryAt 36)).Locates absoluteSymbol.symbol.value "/src/main.c" 0x1100 := by
    rw [listed_splitFunction]
    exact ⟨rfl, ⟨_, rfl⟩, by decide⟩
  cases h with
  | ineligible h => exact absurd ⟨by decide, by decide, by decide, by decide⟩ h
  | fromEntry h he hother =>
    rw [hasEntry_iff, hentries, entryList_splitUnit] at he
    rcases List.mem_pair.1 he with rfl | rfl
    · have hpath := hother.path_eq
      rw [path_splitRoot] at hpath
      cases hpath
    · rw [listed_splitFunction] at hother ⊢
      obtain ⟨hpath, ⟨high, hrange⟩, -⟩ := hother
      cases hpath
      cases hrange
      exact ⟨rfl, rfl⟩
  | fromRow h hnone => exact absurd hlocates (hnone _ _ _ hfunction)
  | unmatched h hnone => exact absurd hlocates (hnone _ _ _ hfunction)

theorem not_passesOver_absoluteSymbol :
    ∃ d, ofSections splitUnit.sections .little = .ok d ∧
      let t := SymbolTable.ofSymbols 0xfff3 [absoluteSymbol]
      (d.attributeAll t).1.symbols = #[declaredSymbol] ∧
        (d.attributeAll t).2 = { fromEntries := 1 } ∧ ¬ d.PassesOver t isReserved := by
  let t := SymbolTable.ofSymbols 0xfff3 [absoluteSymbol]
  have hsymbols : t.symbols = #[absoluteSymbol] := rfl
  obtain ⟨hsource, hcounts⟩ := attributed_absoluteSymbol (attributed_of_attribute? rfl)
  refine ⟨splitInfo, splitUnit.ofSections_sections, ?_, ?_, ?_⟩
  · rw [symbols_attributeAll, hsymbols, List.map_toArray]
    exact congrArg (#[·]) hsource
  · rw [snd_attributeAll, SymbolTable.toList_symbols_ofSymbols]
    exact congrArg (MatchCounts.total [·]) hcounts
  · intro h
    have hmem : absoluteSymbol ∈ t.symbols := Array.mem_push_self
    exact passesOver_iff_forall.1 h _ hmem rfl ⟨by decide, by decide, by decide, by decide⟩

end DebugInfo

end StackSurvey.Dwarf
