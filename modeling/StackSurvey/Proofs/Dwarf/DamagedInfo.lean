import StackSurvey.Proofs.Dwarf.AbbreviationTable
import StackSurvey.Proofs.Dwarf.DamagedUnit
import StackSurvey.Proofs.Dwarf.UnitExtent

namespace StackSurvey.Dwarf

open Decoder

variable {w v : Window} {k pos next : Nat}

/-- A unit is found by its length alone: what it contains does not matter. -/
theorem Window.SharesBelow.unit_eq (h : w.SharesBelow v k) {r : Region}
    (hunit : unit w pos = .ok r next) (hk : pos + r.format.lengthSize ≤ k) :
    unit v pos = .ok r next := by
  cases hlength : unitLength w pos with
  | error fault mid =>
    rw [unit_of_error hlength] at hunit
    cases hunit
  | ok length mid =>
    obtain ⟨format, size⟩ := length
    obtain ⟨n, hstates, rfl⟩ := statesLength_of_unitLength hlength
    have hle := le_limit_of_unit hlength hunit
    rw [unit_of_unitLength hlength hle] at hunit
    cases hunit
    have hholds : v.Holds pos (format.encodeLength v.region.order n) := by
      rw [h.region_eq]
      refine h.holds hstates.holds ?_
      rwa [Format.length_encodeLength]
    obtain ⟨mid', hlength'⟩ := Window.StatesLength.unitLength_eq ⟨hstates.writes, hholds⟩
    rw [unit_of_unitLength hlength' (h.limit_eq ▸ hle), h.region_eq]

theorem Decoder.lengthSize_le_of_unit {r : Region} (h : unit w pos = .ok r next) :
    pos + r.format.lengthSize ≤ next := by
  cases hlength : unitLength w pos with
  | error fault mid =>
    rw [unit_of_error hlength] at h
    cases h
  | ok length mid =>
    obtain ⟨format, size⟩ := length
    obtain ⟨n, hstates, rfl⟩ := statesLength_of_unitLength hlength
    rw [unit_of_unitLength hlength (le_limit_of_unit hlength h)] at h
    cases h
    have hshort : format.lengthSize ≤ 0xffffffffffffffff := by cases format <;> decide
    have hlong : format.lengthSize ≤ n + format.lengthSize := Nat.le_add_left ..
    exact Nat.add_le_add_left (Nat.le_min.2 ⟨hlong, hshort⟩) pos

namespace DebugUnit

variable {sections : DebugSections} {index : Nat} {r : Region} {u : DebugUnit}

theorem root_le_of_ofRegion {info : ByteArray} (h : ofRegion index sections info r = .ok u) :
    u.header.rootOffset ≤ r.stop := by
  obtain ⟨header, next, hdecode, rfl⟩ := exists_decode_of_ofRegion h
  obtain ⟨bytes, hbytes, -, hroot, -⟩ := UnitHeader.layout_of_decode hdecode
  rw [hroot]
  exact Nat.le_trans hbytes.le_limit (Nat.min_le_left ..)

/-- The header of a unit ends where its root begins, so damage behind that leaves it a unit. -/
theorem exists_ofRegion (h : w.SharesBelow v k) (info : Option ByteArray)
    (hu : ofRegion index sections w.data r = .ok u) (hk : u.header.rootOffset ≤ k) :
    r.start + r.format.lengthSize ≤ k ∧
      ∃ u', ofRegion index { sections with info } v.data r = .ok u' ∧ u.SharesBelow u' k := by
  obtain ⟨header, next, hdecode, rfl⟩ := exists_decode_of_ofRegion hu
  have hroot : header.rootOffset ≤ k := hk
  obtain ⟨bytes, hbytes, -, hlength, hnext⟩ := UnitHeader.layout_of_decode hdecode
  have hlimit := hbytes.le_limit
  dsimp only at hlength hlimit
  have hdecode' := UnitHeader.settledBy_decode.eq_ok (h.inRegion r) (by omega) hdecode (by omega)
  refine ⟨by omega, _, ofRegion_of_decode index _ hdecode', ?_⟩
  exact
    { index_eq := rfl
      header_eq := rfl
      abbreviations_eq := DebugSections.decodeAt_withInfo sections info DebugSection.noConfusion ..
      sections_eq := rfl
      window := h.inRegion _ }

end DebugUnit

namespace DebugInfo

variable {sections : DebugSections} {before before' : Array DebugUnit} {u : DebugUnit} {i : Nat}

theorem le_root_of_getElem?_scan (h : (scan sections w pos before)[i]? = some u)
    (hi : before.size ≤ i) : pos ≤ u.header.rootOffset := by
  obtain ⟨r, _, -, hle, hu⟩ := exists_region_of_getElem?_scan h hi
  obtain ⟨hstart, -, hroot⟩ := DebugUnit.bounds_of_ofRegion hu
  omega

/-- A scan finds a unit whose header ends before the damage where it was: as many units are found
before it. -/
theorem exists_getElem?_scan (h : w.SharesBelow v k) (info : Option ByteArray)
    (hu : (scan sections w pos before)[i]? = some u) (hi : before.size ≤ i)
    (hk : u.header.rootOffset ≤ k) (hsize : before'.size = before.size) :
    ∃ u', (scan { sections with info } v pos before')[i]? = some u' ∧ u.SharesBelow u' k := by
  induction pos, before using scan.induct sections w generalizing before' with
  | case1 pos before hlt fault mid hunit =>
    rw [scan_of_error hunit, Array.getElem?_eq_none hi] at hu
    cases hu
  | case2 pos before hlt region next hunit x hx ih =>
    have hlt' : pos < v.limit := h.limit_eq ▸ hlt
    obtain ⟨hstart, hstop⟩ := bounds_of_unit hunit
    rw [scan_of_unit hlt hunit hx] at hu
    rcases Nat.eq_or_lt_of_le hi with rfl | hlater
    · rw [getElem?_scan_push] at hu
      cases hu
      obtain ⟨hlength, u', hu', hshares⟩ := DebugUnit.exists_ofRegion h info hx hk
      rw [← hsize] at hu'
      rw [scan_of_unit hlt' (h.unit_eq hunit (hstart ▸ hlength)) hu', ← hsize]
      exact ⟨u', getElem?_scan_push .., hshares⟩
    · -- A unit before this one is undamaged as a whole.
      have hnext : next ≤ k :=
        Nat.le_trans (le_root_of_getElem?_scan hu (by rw [Array.size_push]; omega)) hk
      have hroot := DebugUnit.root_le_of_ofRegion hx
      obtain ⟨hlength, x', hx', -⟩ := DebugUnit.exists_ofRegion h info hx (by omega)
      rw [← hsize] at hx'
      rw [scan_of_unit hlt' (h.unit_eq hunit (hstart ▸ hlength)) hx']
      exact ih hu (by rw [Array.size_push]; omega) (by simp only [Array.size_push, hsize])
  | case3 pos before hlt region next hunit fault hx ih =>
    have hlt' : pos < v.limit := h.limit_eq ▸ hlt
    obtain ⟨-, hstop⟩ := bounds_of_unit hunit
    rw [scan_of_region hlt hunit, hx] at hu
    have hnext : next ≤ k := Nat.le_trans (le_root_of_getElem?_scan hu hi) hk
    have hlength := lengthSize_le_of_unit hunit
    rw [scan_of_region hlt' (h.unit_eq hunit (by omega))]
    cases hx' : DebugUnit.ofRegion before'.size { sections with info } v.data region with
    | error fault' => exact ih hu hi hsize
    | ok x' =>
      have hroot := DebugUnit.root_le_of_ofRegion hx'
      obtain ⟨-, x, hfound, -⟩ :=
        DebugUnit.exists_ofRegion h.symm sections.info hx' (by omega)
      rw [hsize] at hfound
      cases hx.symm.trans hfound
  | case4 pos before hlt =>
    rw [scan, if_neg hlt, Array.getElem?_eq_none hi] at hu
    cases hu

theorem sharesBelow_whole {info info' : ByteArray} (order : ByteOrder)
    (hsize : info'.size = info.size) (h : ∀ j < k, info'.data[j]? = info.data[j]?) :
    Window.SharesBelow ⟨info, .whole info order⟩ ⟨info', .whole info' order⟩ k where
  region_eq := by rw [Region.whole, Region.whole, hsize]
  size_eq := hsize
  getElem_eq j hj hj' hlt := by
    have hsame := h j hlt
    rw [Array.getElem?_eq_getElem hj', Array.getElem?_eq_getElem hj] at hsame
    exact Option.some.inj hsame

/-- Bytes of `.debug_info` behind a position in a unit, or at it, change nothing about the entries
of the unit that end before it or there: the same are listed, each with all that is resolved of
it. -/
theorem entries_endingBy_eq (sections : DebugSections) (order : ByteOrder)
    {info info' : ByteArray} {d : DebugInfo} {u : DebugUnit}
    (hd : ofSections { sections with info := some info } order = .ok d)
    (hu : d.units[i]? = some u) (hk : u.header.rootOffset ≤ k) (hsize : info'.size = info.size)
    (hagree : ∀ j < k, info'.data[j]? = info.data[j]?) :
    ∃ d' u', ofSections { sections with info := some info' } order = .ok d' ∧
      d'.units[i]? = some u' ∧ u'.header = u.header ∧ u'.region = u.region ∧
      ∀ p q, ∃ entries entries', u.entries.answer p = .ok entries ∧
        u'.entries.answer q = .ok entries' ∧
        DebugUnit.endingBy k entries' = DebugUnit.endingBy k entries := by
  cases hd
  obtain ⟨u', hu', hshares⟩ := exists_getElem?_scan (sharesBelow_whole order hsize hagree)
    (some info') hu (Nat.zero_le i) hk rfl
  refine ⟨_, u', rfl, hu', hshares.header_eq, hshares.region_eq, fun p q => ?_⟩
  exact ⟨u.entryList, u'.entryList, u.answer_entries p, u'.answer_entries q,
    hshares.endingBy_entryList_eq⟩

def outerName : SpelledAbbreviation :=
  .inBytes 8 0x13 true [(0x03, .string)] (by decide)

def innerName : SpelledAbbreviation :=
  .inBytes 9 0x0d false [(0x03, .string)] (by decide)

/-- A unit whose root has a name and two children with one. -/
def nameContents : LoneUnit where
  abbreviations := [outerName, innerName]
  entries := [8, 0x6d, 0, 9, 0x70, 0, 9, 0x71, 0, 0]

/-- The unit with other bytes behind its second entry. -/
def damagedNames : LoneUnit where
  abbreviations := [outerName, innerName]
  entries := [8, 0x6d, 0, 9, 0x70, 0, 0x7f, 1, 2, 3]

def nameUnit : DebugUnit := nameContents.unit

def outerEntry : EncodedEntry nameUnit :=
  nameContents.entry outerName (.head _) [({ name := 0x03, form := .string }, [0x6d] ++ [0])] rfl
    (List.forall_mem_singleton.2 (.direct Form.noConfusion (.terminated (by decide))))

def innerEntry (name : List UInt8) (h : 0 ∉ name) : EncodedEntry nameUnit :=
  nameContents.entry innerName (.tail _ (.head _))
    [({ name := 0x03, form := .string }, name ++ [0])] rfl
    (List.forall_mem_singleton.2 (.direct Form.noConfusion (.terminated h)))

def nameTree : EntryTree nameUnit :=
  .parent outerEntry rfl
    [.leaf (innerEntry [0x70] (by decide)) rfl, .leaf (innerEntry [0x71] (by decide)) rfl] zeroByte

theorem map_nextOffset_nameUnit : nameUnit.entryList.map (·.nextOffset) = [14, 17, 20] := by
  have hentries : nameContents.entries = [] ++ (nameTree.bytes ++ []) := rfl
  have hholds : nameUnit.window.Holds nameUnit.header.rootOffset nameTree.bytes :=
    nameContents.holds_entries hentries
  have hnext (x : PlacedEntry nameUnit) : (x.listed nameUnit.resolver).nextOffset =
      (x.entry.entryAt x.offset).nextOffset := Entry.nextOffset_resolve ..
  rw [DebugUnit.entryList, DebugUnit.walk_tree nameTree 0 (Nat.le_refl _) hholds, if_pos rfl,
    List.append_nil, List.map_map]
  exact List.map_congr_left fun x _ => hnext x

/-- Behind the second entry the abbreviation code and all that follows are damaged. -/
theorem entries_endingBy_eq_nameUnit :
    ∃ d d' u', ofSections nameContents.sections .little = .ok d ∧
      d.units[0]? = some nameUnit ∧ ofSections damagedNames.sections .little = .ok d' ∧
      d'.units[0]? = some u' ∧
      ∃ entries entries', nameUnit.entries.answer {} = .ok entries ∧
        entries.map (·.nextOffset) = [14, 17, 20] ∧ u'.entries.answer {} = .ok entries' ∧
        DebugUnit.endingBy 17 entries' = DebugUnit.endingBy 17 entries := by
  have hsize : damagedNames.info.size = nameContents.info.size := rfl
  have hagree : ∀ j < 17, damagedNames.info.data[j]? = nameContents.info.data[j]? := by decide
  obtain ⟨d', u', hd', hu', -, -, hentries⟩ := entries_endingBy_eq (i := 0) (u := nameUnit)
    nameContents.sections .little nameContents.ofSections_sections rfl (by decide) hsize hagree
  obtain ⟨entries, entries', hbefore, hafter, hsame⟩ := hentries {} {}
  refine ⟨_, d', u', nameContents.ofSections_sections, rfl, hd', hu', entries, entries', hbefore,
    ?_, hafter, hsame⟩
  rw [nameUnit.answer_entries] at hbefore
  cases hbefore
  exact map_nextOffset_nameUnit

end DebugInfo

end StackSurvey.Dwarf
