import StackSurvey.Proofs.Dwarf.AbbreviationTable
import StackSurvey.Proofs.Dwarf.DelimitedUnits

namespace StackSurvey.Dwarf

/-- Debug information that is one unit of version 4. -/
structure LoneUnit where
  order : ByteOrder := .little
  addressSize : UInt8 := 8
  abbreviations : List SpelledAbbreviation
  /-- The bytes behind the header. -/
  entries : List UInt8
  /-- The sections that are neither the unit nor its abbreviations. -/
  others : DebugSections := {}
  /-- Addresses have a size that is read, no two abbreviations share a code, and four bytes hold the
  length. -/
  valid : isAddressSize addressSize.toNat = true ∧
    (abbreviations.map (·.abbreviation.code)).Nodup ∧ 7 + entries.length < 0xfffffff0 := by decide

namespace LoneUnit

theorem size_supported (x : LoneUnit) : isAddressSize x.addressSize.toNat = true := x.valid.1

theorem distinct (x : LoneUnit) : (x.abbreviations.map (·.abbreviation.code)).Nodup := x.valid.2.1

theorem short (x : LoneUnit) : 7 + x.entries.length < 0xfffffff0 := x.valid.2.2

def header (x : LoneUnit) : List UInt8 :=
  x.order.encode 2 4 ++ (x.order.encode 4 0 ++ [x.addressSize])

theorem length_header (x : LoneUnit) : x.header.length = 7 := by
  rw [header, List.length_append, List.length_append, ByteOrder.length_encode,
    ByteOrder.length_encode]
  rfl

def delimited (x : LoneUnit) : DelimitedUnit where
  format := .bits32
  content := x.header ++ x.entries
  fits := by
    rw [List.length_append, length_header]
    exact x.short

def info (x : LoneUnit) : ByteArray := ⟨(x.delimited.bytes x.order).toArray⟩

theorem length_bytes (x : LoneUnit) :
    (x.delimited.bytes x.order).length = 11 + x.entries.length := by
  rw [DelimitedUnit.length_bytes, delimited, List.length_append, length_header, ← Nat.add_assoc]
  rfl

def table (x : LoneUnit) : AbbreviationTable := .ofList (x.abbreviations.map (·.abbreviation))

variable (x : LoneUnit)

/-- The unit and its abbreviations beside the others. -/
def sections : DebugSections :=
  { x.others with
    info := some x.info
    abbreviations := some ⟨(AbbreviationTable.spell x.abbreviations).toArray⟩ }

def unit : DebugUnit where
  index := 0
  header :=
    { version := 4, unitType := 0, addressSize := x.addressSize.toNat, abbreviationOffset := 0
      rootOffset := 11 }
  region :=
    { start := 0, stop := 11 + x.entries.length, order := x.order
      addressSize := x.addressSize.toNat }
  info := x.info
  sections := x.sections
  abbreviations := .ok x.table

theorem hasHeader : x.delimited.HasHeader x.order 0 x.unit.header := by
  have hversion : x.order.decode (x.order.encode 2 4) = 4 := by
    rw [ByteOrder.decode_encode]
    rfl
  have hoffset : x.order.decode (x.order.encode 4 0) = 0 := by
    rw [ByteOrder.decode_encode]
    rfl
  have hlayout : UnitHeader.Layout x.order .bits32 (x.order.decode (x.order.encode 2 4)) 0
      x.addressSize.toNat (.ofNat (x.order.decode (x.order.encode 4 0))) x.header :=
    .early (ByteOrder.length_encode ..) (by rw [hversion]; decide) (by rw [hversion])
      (ByteOrder.length_encode ..) x.size_supported
  rw [hversion, hoffset] at hlayout
  refine ⟨x.header, x.entries, rfl, hlayout, ?_⟩
  rw [length_header]
  rfl

theorem loadAbbreviations_sections :
    DebugUnit.loadAbbreviations x.sections x.order x.unit.header =
      .ok x.table := by
  refine DebugSections.decodeAt_of_reads rfl ?_ (AbbreviationTable.reads_decode x.abbreviations)
    (Window.endsWith_whole rfl).holds
  exact List.append_ne_nil_of_right_ne_nil _ (List.cons_ne_nil _ _)

theorem unitAt_delimited :
    x.delimited.unitAt x.sections x.info x.order 0 0 x.unit.header =
      x.unit := by
  rw [DelimitedUnit.unitAt, loadAbbreviations_sections, DelimitedUnit.regionAt, length_bytes,
    Nat.zero_add]
  rfl

/-- The unit is all that is found. -/
theorem ofSections_sections :
    DebugInfo.ofSections x.sections x.order =
      .ok { sections := x.sections, units := #[x.unit] } := by
  have hsize : x.info.size < 1 <<< 63 := by
    have hlength : x.info.size = 11 + x.entries.length := x.length_bytes
    have hshort := x.short
    omega
  have hbytes : x.info.data.toList = [x.delimited].flatMap (·.bytes x.order) ++ [] := by
    simp [info]
  have hlists : Lists x.sections x.info x.order 0 0 [x.delimited] [x.unit] := by
    rw [← x.unitAt_delimited]
    exact .unit (x.hasHeader) .nil
  exact DebugInfo.ofSections_of_lists rfl hsize hbytes .empty hlists

theorem exists_ofSections :
    ∃ d, DebugInfo.ofSections x.sections x.order = .ok d ∧ d.units[0]? = some x.unit :=
  ⟨_, x.ofSections_sections, rfl⟩

/-- The entries stand behind the header. -/
theorem endsWith_entries : x.unit.window.EndsWith 11 x.entries := by
  have hinfo : (Window.mk x.info (.whole x.info x.order)).Holds 0 (x.delimited.bytes x.order) :=
    (Window.endsWith_whole rfl).holds
  have hunit := DelimitedUnit.endsWith_unitAt hinfo x.sections 0 x.unit.header
  rw [unitAt_delimited, DelimitedUnit.bytes] at hunit
  have hcontent := hunit.append.2
  rw [Format.length_encodeLength] at hcontent
  have hentries := hcontent.append.2
  rw [length_header] at hentries
  exact hentries

theorem holds_entries {before bytes rest : List UInt8} (h : x.entries = before ++ (bytes ++ rest)) :
    x.unit.window.Holds (11 + before.length) bytes := by
  have hentries := x.endsWith_entries
  rw [h] at hentries
  exact hentries.append.2.append.1

theorem get_of_mem {a : SpelledAbbreviation} (h : a ∈ x.abbreviations) :
    x.table.get (Leb128.unsigned a.code) = .ok a.abbreviation := by
  obtain ⟨before, after, hsplit⟩ := List.append_of_mem h
  have hdistinct := x.distinct
  rw [hsplit, List.map_append, List.map_cons] at hdistinct
  have hafter := (List.nodup_cons.1 (List.nodup_append.1 hdistinct).2.1).1
  refine (AbbreviationTable.indexes_ofList _).get_last (before.map (·.abbreviation)) a.abbreviation
    (after.map (·.abbreviation)) ?_ ?_
  · rw [hsplit, List.map_append, List.map_cons]
  · refine List.forall_mem_map.2 fun b hb heq => hafter ?_
    exact heq ▸ List.mem_map_of_mem hb

end LoneUnit

end StackSurvey.Dwarf
