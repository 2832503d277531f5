import StackSurvey.Proofs.Dwarf.SourceIndex
import StackSurvey.Proofs.Dwarf.SourceRows

namespace StackSurvey.Dwarf

variable {d : DebugInfo} {sectionCount : Nat} {s : AnnotatedSymbol}

/-- True of the entries that a traversal of some unit lists. -/
def DebugInfo.HasEntry (d : DebugInfo) (e : Entry) : Prop :=
  ∃ u ∈ d.units, ∃ p entries q, u.entries p = .ok entries q ∧ e ∈ entries

/-- A symbol that can have a source: it has a value, lies in a section of the file, and names
something other than a section. -/
structure Eligible (sectionCount : Nat) (s : Symbol) : Prop where
  value_ne_zero : s.value ≠ 0
  section_ne_zero : s.sectionIndex ≠ 0
  section_lt : s.sectionIndex < sectionCount
  kind_ne_section : s.kind ≠ .section

/-- The row that a symbol of some kind takes its source from, and the location of that row. -/
inductive RowFor (d : DebugInfo) (value : UInt64) :
    SymbolKind → UInt64 → SourceLocation → Prop
  /-- A function takes the closest row at or below it. -/
  | closest {address : UInt64} {location : SourceLocation}
      (hrow : d.location? address = some location) (hle : address ≤ value)
      (hclosest : ∀ other ≤ value, (d.location? other).isSome → other ≤ address)
      (hnear : value.toNat ≤ address.toNat + 5) : RowFor d value .func address location
  /-- Anything else takes the row at it. -/
  | exact {kind : SymbolKind} {location : SourceLocation} (hkind : kind ≠ .func)
      (hrow : d.location? value = some location) : RowFor d value kind value location

/-- What becomes of a symbol, and what it counts for. -/
inductive Attributed (d : DebugInfo) (sectionCount : Nat) (s : AnnotatedSymbol) :
    AnnotatedSymbol → MatchCounts → Prop
  | ineligible (h : ¬ Eligible sectionCount s.symbol) : Attributed d sectionCount s s {}
  | fromEntry {e : Entry} {path : String} {low : UInt64} (h : Eligible sectionCount s.symbol)
      (he : d.HasEntry e) (hlocates : e.Locates s.symbol.value path low) :
      Attributed d sectionCount s
        { s with
          notes :=
            { s.notes with
              source := some
                { path, line := e.line, column := if e.column = 0 then none else some e.column }
              fromEntries := true
              debugAddress := some low } }
        { fromEntries := 1 }
  | fromRow {address : UInt64} {location : SourceLocation} (h : Eligible sectionCount s.symbol)
      (hnone : ∀ e path low, d.HasEntry e → ¬ e.Locates s.symbol.value path low)
      (hrow : RowFor d s.symbol.value s.symbol.kind address location) :
      Attributed d sectionCount s
        { s with
          notes :=
            { s.notes with
              source := some location
              fromEntries := false
              debugAddress := some address } }
        { fromRows := 1 }
  | unmatched (h : Eligible sectionCount s.symbol)
      (hnone : ∀ e path low, d.HasEntry e → ¬ e.Locates s.symbol.value path low)
      (hrow : ∀ address location, ¬ RowFor d s.symbol.value s.symbol.kind address location) :
      Attributed d sectionCount s s { unmatched := 1 }

namespace Session

variable {α : Type} {v : DebugUnit → Visit α} {f : DebugUnit → α}

theorem visit_eq (h : ∀ u p, ∃ q, v u p = .ok (f u) q) (s : Session) (u : DebugUnit) :
    ∃ progress, s.visit u v = (.ok (f u), { s with progress }) := by
  obtain ⟨q, hq⟩ := h u (s.progress.getD u.index {})
  unfold visit
  rw [hq]
  exact ⟨_, rfl⟩

def visitNext (v : DebugUnit → Visit α) (before : Array α × Session) (u : DebugUnit) :
    Array α × Session :=
  match before.2.visit u v with
  | (.ok a, s) => (before.1.push a, s)
  | (.error _, s) => (before.1, s)

theorem visitAll_eq_foldl (s : Session) (v : DebugUnit → Visit α) :
    s.visitAll v = (s.info.units.toList.foldl (visitNext v) (#[], s)).map Array.toList id := by
  unfold visitAll
  rw [← Array.foldl_toList]
  rfl

theorem foldl_visitNext (h : ∀ u p, ∃ q, v u p = .ok (f u) q) (units : List DebugUnit)
    (answers : Array α) (s : Session) :
    ∃ progress, units.foldl (visitNext v) (answers, s) =
      (answers ++ (units.map f).toArray, { s with progress }) := by
  induction units generalizing answers s with
  | nil => exact ⟨s.progress, by simp⟩
  | cons u units ih =>
    obtain ⟨progress, hvisit⟩ := visit_eq h s u
    obtain ⟨progress', hrest⟩ := ih (answers.push (f u)) { s with progress }
    refine ⟨progress', ?_⟩
    rw [List.foldl_cons, visitNext, hvisit]
    simp only [hrest]
    simp

/-- Visits that succeed in every unit answer for every unit, in order. -/
theorem visitAll_eq (h : ∀ u p, ∃ q, v u p = .ok (f u) q) (s : Session) :
    ∃ progress, s.visitAll v = (s.info.units.toList.map f, { s with progress }) := by
  obtain ⟨progress, hfold⟩ := foldl_visitNext h s.info.units.toList #[] s
  refine ⟨progress, ?_⟩
  rw [visitAll_eq_foldl, hfold]
  simp

end Session

/-- What symbols are attributed from in full. -/
theorem sourceLookup_eq (d : DebugInfo) :
    (Session.start d).sourceLookup.1 =
      { index := .ofEntries (d.units.toList.flatMap (·.entryList))
        rows := .ofTables (d.units.toList.filterMap (·.lineTable)) } := by
  obtain ⟨progress, hentries⟩ := Session.visitAll_eq DebugUnit.entries_eq (Session.start d)
  obtain ⟨progress', htables⟩ := Session.visitAll_eq (v := DebugUnit.readLineTable)
    (fun u p => ⟨p.needLineTable, rfl⟩) { Session.start d with progress }
  unfold Session.sourceLookup
  simp only [hentries, htables, List.filterMap_map]
  rfl

theorem hasEntry_iff {e : Entry} : d.HasEntry e ↔ e ∈ d.units.toList.flatMap (·.entryList) := by
  rw [List.mem_flatMap]
  constructor
  · rintro ⟨u, hu, p, entries, q, hentries, he⟩
    obtain ⟨q', hq'⟩ := u.entries_eq p
    rw [hentries] at hq'
    cases hq'
    exact ⟨u, Array.mem_toList_iff.2 hu, he⟩
  · rintro ⟨u, hu, he⟩
    obtain ⟨q, hq⟩ := u.entries_eq {}
    exact ⟨u, Array.mem_toList_iff.1 hu, {}, u.entryList, q, hq, he⟩

theorem wellBounded_of_hasEntry {e : Entry} (h : d.HasEntry e) : e.WellBounded := by
  obtain ⟨u, _, he⟩ := List.mem_flatMap.1 (hasEntry_iff.1 h)
  exact Entry.wellBounded_of_mem_entryList he

theorem getElem?_sourceRows (address : UInt64) :
    (SourceRows.ofTables (d.units.toList.filterMap (·.lineTable)))[address]? =
      d.location? address := by
  rw [SourceRows.getElem?_ofTables, ← List.filterMap_reverse, ← List.head?_filterMap,
    List.filterMap_filterMap, List.head?_filterMap]
  rfl

theorem sub_le_maxRowDistance_iff {value address : UInt64} (h : address ≤ value) :
    value - address ≤ maxRowDistance ↔ value.toNat ≤ address.toNat + 5 := by
  have hle := UInt64.le_iff_toNat_le.1 h
  rw [UInt64.le_iff_toNat_le, UInt64.toNat_sub_of_le _ _ h]
  change value.toNat - address.toNat ≤ 5 ↔ _
  omega

section RowFor

variable {rows : SourceRows} {kind : SymbolKind} {value address : UInt64}
  {location : SourceLocation}

theorem rowFor_of_find? (h : ∀ address : UInt64, rows[address]? = d.location? address)
    (hf : rows.find? kind value = some (address, location)) :
    RowFor d value kind address location := by
  unfold SourceRows.find? at hf
  split at hf
  · rename_i hkind
    subst hkind
    obtain ⟨hrow, hnear⟩ := Option.filter_eq_some_iff.1 hf
    obtain ⟨hat, hle, hclosest⟩ := SourceRows.getEntryLE?_eq_some hrow
    simp only [h] at hat hclosest
    exact .closest hat hle hclosest ((sub_le_maxRowDistance_iff hle).1 (of_decide_eq_true hnear))
  · rename_i hkind
    obtain ⟨location, hat, heq⟩ := Option.map_eq_some_iff.1 hf
    cases heq
    exact .exact hkind (h value ▸ hat)

theorem not_rowFor_of_find? (h : ∀ address : UInt64, rows[address]? = d.location? address)
    (hf : rows.find? kind value = none) : ¬ RowFor d value kind address location := by
  intro hrow
  unfold SourceRows.find? at hf
  cases hrow with
  | closest hrow hle hclosest hnear =>
    rw [if_pos rfl, Option.filter_eq_none_iff] at hf
    cases hg : rows.getEntryLE? value with
    | none =>
      have hnone := SourceRows.getEntryLE?_eq_none hg address hle
      rw [h, hrow] at hnone
      cases hnone
    | some row =>
      -- Both rows are the closest one, so the row found is near enough as well.
      obtain ⟨hat, hle', hclosest'⟩ := SourceRows.getEntryLE?_eq_some hg
      simp only [h] at hat hclosest'
      have heq : row.1 = address :=
        UInt64.le_antisymm (hclosest row.1 hle' (by rw [hat]; rfl))
          (hclosest' address hle (by rw [hrow]; rfl))
      refine hf row hg (decide_eq_true ((sub_le_maxRowDistance_iff hle').2 ?_))
      rw [heq]
      exact hnear
  | exact hkind hrow =>
    rw [if_neg hkind, h, hrow] at hf
    cases hf

end RowFor

theorem sectionIsKnown_iff {t : SymbolTable} {index : Nat} :
    t.sectionIsKnown index ↔ index ≠ 0 ∧ index < t.sectionCount := by
  rw [SymbolTable.sectionIsKnown, Bool.and_eq_true, decide_eq_true_eq, decide_eq_true_eq]

theorem eligible_iff {s : Symbol} :
    Eligible sectionCount s ↔
      0 < s.value ∧ (SymbolTable.empty sectionCount).sectionIsKnown s.sectionIndex ∧
        s.kind ≠ .section := by
  rw [sectionIsKnown_iff, UInt64.pos_iff_ne_zero]
  exact ⟨fun h => ⟨h.1, ⟨h.2, h.3⟩, h.4⟩, fun ⟨h₁, ⟨h₂, h₃⟩, h₄⟩ => ⟨h₁, h₂, h₃, h₄⟩⟩

theorem attributed_of_attribute? {attribution : Attribution}
    (ha : (Session.start d).sourceLookup.1.attribute? (.empty sectionCount) s.symbol =
      attribution) :
    Attributed d sectionCount s { s with notes := attribution.apply s.notes }
      (({} : MatchCounts).add attribution) := by
  have hbounded : ∀ e ∈ d.units.toList.flatMap (·.entryList), e.WellBounded :=
    fun e he => wellBounded_of_hasEntry (hasEntry_iff.2 he)
  rw [sourceLookup_eq] at ha
  unfold SourceLookup.attribute? at ha
  split at ha
  · have h := eligible_iff.2 ‹_›
    split at ha
    · subst ha
      obtain ⟨he, hlocates⟩ := SourceIndex.locates_of_find? hbounded ‹_›
      have hattributed := Attributed.fromEntry h (hasEntry_iff.2 he) hlocates
      rw [← sourceLocation_eq] at hattributed
      exact hattributed
    · rename_i hspan
      have hnone (e : Entry) (path : String) (low : UInt64) (he : d.HasEntry e) :
          ¬ e.Locates s.symbol.value path low :=
        SourceIndex.not_locates_of_find? hbounded hspan (hasEntry_iff.1 he)
      split at ha
      · subst ha
        exact .fromRow h hnone (rowFor_of_find? getElem?_sourceRows ‹_›)
      · subst ha
        exact .unmatched h hnone fun _ _ => not_rowFor_of_find? getElem?_sourceRows ‹_›
  · subst ha
    exact .ineligible (mt eligible_iff.1 ‹_›)

namespace MatchCounts

def plus (a b : MatchCounts) : MatchCounts :=
  { fromEntries := a.fromEntries + b.fromEntries
    fromRows := a.fromRows + b.fromRows
    unmatched := a.unmatched + b.unmatched }

def total : List MatchCounts → MatchCounts
  | [] => {}
  | counts :: rest => counts.plus (total rest)

theorem empty_plus (counts : MatchCounts) : plus {} counts = counts := by
  simp [plus]

theorem plus_assoc (a b c : MatchCounts) : (a.plus b).plus c = a.plus (b.plus c) := by
  simp [plus, Nat.add_assoc]

theorem add_eq_plus (counts : MatchCounts) (attribution : Attribution) :
    counts.add attribution = counts.plus (({} : MatchCounts).add attribution) := by
  cases attribution <;> simp [plus, add]

theorem foldl_add (attributions : List Attribution) (counts : MatchCounts) :
    attributions.foldl add counts =
      counts.plus (total (attributions.map (({} : MatchCounts).add ·))) := by
  induction attributions generalizing counts with
  | nil => rfl
  | cons attribution attributions ih =>
    rw [List.foldl_cons, ih, add_eq_plus, plus_assoc]
    rfl

end MatchCounts

/-- Attribution treats every symbol by itself: what becomes of one and what it counts for depend on
the debug information, the number of sections and the symbol. -/
theorem attributeAll_eq_map (d : DebugInfo) :
    ∃ fate : Nat → AnnotatedSymbol → AnnotatedSymbol × MatchCounts,
      (∀ sectionCount s,
        Attributed d sectionCount s (fate sectionCount s).1 (fate sectionCount s).2) ∧
      ∀ t : SymbolTable,
        d.attributeAll t =
          ({ t with symbols := t.symbols.map fun s => (fate t.sectionCount s).1 },
            MatchCounts.total (t.symbols.toList.map fun s => (fate t.sectionCount s).2)) := by
  let attribution (sectionCount : Nat) (s : AnnotatedSymbol) : Attribution :=
    (Session.start d).sourceLookup.1.attribute? (.empty sectionCount) s.symbol
  refine ⟨fun sectionCount s =>
    ({ s with notes := (attribution sectionCount s).apply s.notes },
      ({} : MatchCounts).add (attribution sectionCount s)), ?_, ?_⟩
  · intro sectionCount s
    exact attributed_of_attribute? rfl
  · intro t
    have hcounts := MatchCounts.foldl_add (t.symbols.toList.map (attribution t.sectionCount)) {}
    rw [List.foldl_map, Array.foldl_toList, List.map_map, MatchCounts.empty_plus] at hcounts
    exact Prod.ext rfl hcounts

end StackSurvey.Dwarf
