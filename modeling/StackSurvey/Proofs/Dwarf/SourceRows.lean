import StackSurvey.Dwarf.Attribution
import StackSurvey.Proofs.KeyedFold

namespace StackSurvey.Dwarf

open Std.DTreeMap.Internal

variable {address : UInt64}

/-- The location that a line table gives for an address, if the file of its row is known. -/
def LineTable.location? (table : LineTable) (address : UInt64) : Option SourceLocation := do
  let row ← table.rows[address]?
  let path ← table.fileName? row.file
  return { path, line := row.line, column := if row.column = 0 then none else some row.column }

/-- The location that the line tables of all units give for an address: that of the last unit which
has one. -/
def DebugInfo.location? (d : DebugInfo) (address : UInt64) : Option SourceLocation :=
  d.units.toList.reverse.findSome? fun u => u.lineTable.bind (·.location? address)

theorem sourceLocation_eq (path : String) (line column : UInt64) :
    sourceLocation path line column =
      { path, line, column := if column = 0 then none else some column } := by
  have hpos : 0 < column ↔ ¬ column = 0 := by
    rw [UInt64.pos_iff_ne_zero]
  simp only [sourceLocation, hpos, ite_not]

namespace SourceRows

variable {rows : SourceRows}

def located? (table : LineTable) (row : LineRow) : Option SourceLocation :=
  (table.fileName? row.file).map fun path => sourceLocation path row.line row.column

theorem location?_eq (table : LineTable) :
    table.location? address = table.rows[address]?.bind (located? table) := by
  unfold LineTable.location? located?
  simp only [sourceLocation_eq]
  cases table.rows[address]? with
  | none => rfl
  | some row => cases h : table.fileName? row.file <;> simp [h]

theorem changesOwnKey_addTable (table : LineTable) :
    ChangesOwnKey
      (fun (rows : SourceRows) address (row : LineRow) =>
        match table.fileName? row.file with
        | some path => rows.insert address (sourceLocation path row.line row.column)
        | none => rows)
      (fun _ row old => (located? table row).or old) := by
  intro rows address row other
  dsimp only
  rw [located?]
  cases table.fileName? row.file with
  | none => exact (ite_self _).symm
  | some path =>
    dsimp only
    rw [Std.TreeMap.getElem?_insert]
    simp only [Std.compare_eq_iff_eq]
    rfl

theorem getElem?_addTable (table : LineTable) :
    (rows.addTable table)[address]? = (table.location? address).or rows[address]? := by
  have hrows : (rows.addTable table)[address]? =
      table.rows[address]?.elim rows[address]? fun row => (located? table row).or rows[address]? :=
    (changesOwnKey_addTable table).getElem?_foldl table.rows rows address
  rw [hrows, location?_eq]
  cases table.rows[address]? <;> rfl

theorem getElem?_foldl_addTable (tables : List LineTable) :
    (tables.foldl addTable rows)[address]? =
      (tables.reverse.findSome? (·.location? address)).or rows[address]? := by
  induction tables generalizing rows with
  | nil => rfl
  | cons table tables ih =>
    rw [List.foldl_cons, ih, getElem?_addTable, List.reverse_cons, List.findSome?_append,
      Option.or_assoc, List.findSome?_singleton]

theorem getElem?_ofTables (tables : List LineTable) :
    (ofTables tables)[address]? = tables.reverse.findSome? (·.location? address) := by
  rw [ofTables, getElem?_foldl_addTable]
  simp

theorem getEntryLE?_eq (rows : SourceRows) (address : UInt64) :
    rows.getEntryLE? address = rows.toList.findRev? fun row => (compare row.1 address).isLE := by
  unfold Std.TreeMap.getEntryLE? Std.DTreeMap.Const.getEntryLE?
  rw [Impl.Const.getEntryLE?_eq_map, Impl.getEntryLE?_eq_findRev? rows.inner.wf.ordered]
  change _ = (Impl.Const.toList rows.inner.inner).findRev? _
  rw [Impl.Const.toList_eq_toListModel_map, List.findRev?_eq_find?_reverse,
    List.findRev?_eq_find?_reverse, ← List.map_reverse, List.find?_map]
  rfl

theorem getEntryLE?_eq_some {row : UInt64 × SourceLocation}
    (h : rows.getEntryLE? address = some row) :
    rows[row.1]? = some row.2 ∧ row.1 ≤ address ∧
      ∀ other ≤ address, (rows[other]?).isSome → other ≤ row.1 := by
  rw [getEntryLE?_eq, List.findRev?_eq_find?_reverse] at h
  obtain ⟨hle, before, after, hsplit, hbefore⟩ := List.find?_eq_some_iff_append.1 h
  have hmem := List.mem_of_find?_eq_some h
  refine ⟨Std.TreeMap.mem_toList_iff_getElem?_eq_some.1 (List.mem_reverse.1 hmem),
    Std.isLE_compare.1 hle, fun other hother hsome => ?_⟩
  obtain ⟨location, hlocation⟩ := Option.isSome_iff_exists.1 hsome
  have hin := List.mem_reverse.2 (Std.TreeMap.mem_toList_iff_getElem?_eq_some.2 hlocation)
  have hordered := List.pairwise_reverse.2 (Std.TreeMap.ordered_keys_toList (t := rows))
  rw [hsplit] at hin hordered
  rcases List.mem_append.1 hin with hin | hin
  · have hgt := hbefore _ hin
    rw [Std.isLE_compare.2 hother] at hgt
    cases hgt
  · rcases List.mem_cons.1 hin with rfl | hin
    · exact UInt64.le_refl _
    · have hlt := (List.pairwise_cons.1 (List.pairwise_append.1 hordered).2.1).1 _ hin
      exact UInt64.le_of_lt (Std.compare_eq_lt.1 hlt)

theorem getEntryLE?_eq_none (h : rows.getEntryLE? address = none) :
    ∀ other ≤ address, rows[other]? = none := by
  intro other hle
  rw [getEntryLE?_eq, List.findRev?_eq_find?_reverse, List.find?_eq_none] at h
  cases hother : rows[other]? with
  | none => rfl
  | some location =>
    have hmem := List.mem_reverse.2 (Std.TreeMap.mem_toList_iff_getElem?_eq_some.2 hother)
    exact absurd (Std.isLE_compare.2 hle) (h _ hmem)

end SourceRows

end StackSurvey.Dwarf
