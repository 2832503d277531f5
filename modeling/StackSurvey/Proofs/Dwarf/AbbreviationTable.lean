import Mathlib.Data.List.Dedup
import StackSurvey.Proofs.Dwarf.AbbreviationBytes
import StackSurvey.Proofs.Dwarf.GroupBytes
import StackSurvey.Proofs.Dwarf.Truncation

namespace StackSurvey.Dwarf

open Decoder

variable {r : Region}

namespace AttributeSpec

/-- What a table can hold of an attribute: not the end of a list of specs, a form that its code
stands for, the kind that the code belongs to, and a constant just if the form stores one. -/
structure Encodable (spec : AttributeSpec) : Prop where
  ne_end : ¬ (spec.name = 0 ∧ spec.form.code = 0)
  hasCode_form : spec.form.HasCode spec.form.code
  hasCode_kind : spec.kind.HasCode spec.form.code
  isSome_iff : spec.implicitConst.isSome ↔ spec.form = .implicitConst

theorem Spells.encodable {spec : AttributeSpec} {bytes : List UInt8} (h : spec.Spells bytes) :
    spec.Encodable := by
  cases h with
  | plain hname hcode hne hform hkind hplain =>
    have hcode := hform.code_eq
    rw [← hcode] at hne hform hkind
    exact ⟨hne, hform, hkind, by simpa using hplain⟩
  | stored hname hcode hform hconstant =>
    have hne : Form.implicitConst.code ≠ 0 := by decide
    have hkind : Form.implicitConst.code ∈ FormClass.constant.codes := by decide
    exact ⟨fun h => hne h.2, .named rfl, .listed hkind, by simp⟩

theorem Encodable.exists_spells {spec : AttributeSpec} (h : spec.Encodable) :
    ∃ bytes, spec.Spells bytes := by
  obtain ⟨name, form, kind, constant⟩ := spec
  obtain ⟨hne, hform, hkind, hconstant⟩ := h
  have hname := Leb128.isGroup_encode name.toNat
  have hcode := Leb128.isGroup_encode form.code.toNat
  cases constant with
  | none =>
    have hplain : form ≠ .implicitConst := fun heq => Bool.false_ne_true (hconstant.2 heq)
    rw [← Leb128.unsigned_encode form.code] at hne hform hkind
    rw [← Leb128.unsigned_encode name] at hne ⊢
    exact ⟨_, .plain hname hcode hne hform hkind hplain⟩
  | some n =>
    obtain rfl : form = .implicitConst := hconstant.1 rfl
    obtain rfl : FormClass.constant = kind := FormClass.formClass_ofCode_iff.2 hkind
    rw [← Leb128.unsigned_encode name, ← Leb128.signed_encodeSigned n]
    exact ⟨_, .stored hname hcode (Leb128.unsigned_encode _) (Leb128.isGroup_encodeSigned n.toInt)⟩

theorem Spells.needsAll_decode {spec : AttributeSpec} {bytes : List UInt8} (h : spec.Spells bytes) :
    AttributeSpec.decode.NeedsAll r bytes := by
  cases h with
  | plain hname hcode =>
    exact (needsAll_uleb128 hname).bind (reads_uleb128 hname) (needsAll_uleb128 hcode).bind_nil
  | stored hname hcode hform hconstant =>
    apply (needsAll_uleb128 hname).bind (reads_uleb128 hname)
    apply (needsAll_uleb128 hcode).bind (reads_uleb128 hcode)
    have hstored : Form.ofCode 0x21 = .implicitConst := rfl
    rw [hform, if_neg fun hzero => absurd hzero.2 (by decide)]
    dsimp only
    rw [if_pos hstored]
    exact (needsAll_sleb128 hconstant).map

theorem needsAll_decode_end : AttributeSpec.decode.NeedsAll r ([0] ++ [0]) := by
  have hzero : Leb128.IsGroup [0] := .last rfl
  exact (needsAll_uleb128 hzero).bind (reads_uleb128 hzero) (needsAll_uleb128 hzero).bind_nil

end AttributeSpec

namespace Abbreviation

/-- What a table can hold: a code that is not its end, and specs that it can hold. -/
structure Encodable (a : Abbreviation) : Prop where
  code_ne_zero : a.code ≠ 0
  specs : ∀ spec ∈ a.specs, spec.Encodable

theorem exists_spelled_specs {specs : List AttributeSpec} (h : ∀ spec ∈ specs, spec.Encodable) :
    ∃ spelled : List (AttributeSpec × List UInt8),
      (∀ x ∈ spelled, x.1.Spells x.2) ∧ spelled.map (·.1) = specs := by
  induction specs with
  | nil => exact ⟨[], List.forall_mem_nil _, rfl⟩
  | cons spec specs ih =>
    obtain ⟨hspec, hspecs⟩ := List.forall_mem_cons.1 h
    obtain ⟨bytes, hbytes⟩ := hspec.exists_spells
    obtain ⟨spelled, hspelled, hmap⟩ := ih hspecs
    refine ⟨(spec, bytes) :: spelled, List.forall_mem_cons.2 ⟨hbytes, hspelled⟩, ?_⟩
    rw [List.map_cons, hmap]

theorem encodable_iff_exists_spelled {a : Abbreviation} :
    a.Encodable ↔ ∃ x : SpelledAbbreviation, x.abbreviation = a := by
  constructor
  · intro h
    obtain ⟨code, tag, hasChildren, specs⟩ := a
    obtain ⟨spelled, hspelled, rfl⟩ := exists_spelled_specs h.specs
    let x : SpelledAbbreviation :=
      { code := Leb128.encode code.toNat
        tag := Leb128.encode tag.toNat
        children := if hasChildren then 1 else 0
        specs := spelled
        isGroup_code := Leb128.isGroup_encode _
        isGroup_tag := Leb128.isGroup_encode _
        code_ne_zero := by
          rw [Leb128.unsigned_encode]
          exact h.code_ne_zero
        spells := hspelled }
    refine ⟨x, ?_⟩
    simp only [SpelledAbbreviation.abbreviation, x, Leb128.unsigned_encode]
    cases hasChildren <;> rfl
  · rintro ⟨x, rfl⟩
    refine ⟨x.code_ne_zero, ?_⟩
    intro spec hspec
    obtain ⟨y, hy, rfl⟩ := List.mem_map.1 hspec
    exact (x.spells y hy).encodable

theorem needsAll_decode_end : Abbreviation.decode.NeedsAll r [0] :=
  (needsAll_uleb128 (.last rfl)).bind_nil

end Abbreviation

theorem SpelledAbbreviation.needsAll_decode (x : SpelledAbbreviation) :
    Abbreviation.decode.NeedsAll r x.bytes := by
  apply (needsAll_uleb128 x.isGroup_code).bind (reads_uleb128 x.isGroup_code)
  rw [if_neg x.code_ne_zero]
  apply (needsAll_uleb128 x.isGroup_tag).bind (reads_uleb128 x.isGroup_tag)
  apply (needsAll_byte x.children).bind (reads_byte x.children)
  apply NeedsAll.bind_nil
  apply needsAll_manyUntil AttributeSpec.advances_decode
  · intro y hy
    exact (x.spells y hy).reads_decode
  · intro y hy
    exact (x.spells y hy).needsAll_decode
  · exact AttributeSpec.needsAll_decode_end

namespace AbbreviationTable

/-- The bytes of a table: its abbreviations, and a zero. -/
def spell (xs : List SpelledAbbreviation) : List UInt8 := xs.flatMap (·.bytes) ++ [0]

theorem needsAll_decode (xs : List SpelledAbbreviation) :
    AbbreviationTable.decode.NeedsAll r (spell xs) := by
  apply NeedsAll.map
  apply needsAll_manyUntil Abbreviation.advances_decode
  · intro x _
    exact x.reads_decode
  · intro x _
    exact x.needsAll_decode
  · exact Abbreviation.needsAll_decode_end

/-- A table holds a list of abbreviations of which, for each code, the last one counts. -/
structure Indexes (table : AbbreviationTable) (entries : List Abbreviation) : Prop where
  size_eq : table.size = (entries.map (·.code)).dedup.length
  get_last : ∀ before a after, entries = before ++ a :: after → (∀ b ∈ after, b.code ≠ a.code) →
    table.get a.code = .ok a
  get_unknown : ∀ code, (∀ a ∈ entries, a.code ≠ code) →
    table.get code = .error (.unknownAbbreviation code)

section Entries

variable {byCode : Std.HashMap UInt64 Abbreviation} {entries : List Abbreviation} {code : UInt64}

theorem getElem?_foldl_insert (h : ∀ a ∈ entries, a.code ≠ code) :
    (entries.foldl (fun byCode a => byCode.insert a.code a) byCode)[code]? = byCode[code]? := by
  induction entries generalizing byCode with
  | nil => rfl
  | cons a entries ih =>
    obtain ⟨hne, hrest⟩ := List.forall_mem_cons.1 h
    rw [List.foldl_cons, ih hrest, Std.HashMap.getElem?_insert, if_neg (by simpa using hne)]

theorem mem_foldl_insert :
    code ∈ entries.foldl (fun byCode a => byCode.insert a.code a) byCode ↔
      code ∈ entries.map (·.code) ∨ code ∈ byCode := by
  induction entries generalizing byCode with
  | nil => simp
  | cons a entries ih =>
    rw [List.foldl_cons, ih, Std.HashMap.mem_insert, List.map_cons, List.mem_cons, beq_iff_eq,
      eq_comm (a := a.code)]
    tauto

theorem size_ofList (entries : List Abbreviation) :
    (ofList entries).size = (entries.map (·.code)).dedup.length := by
  have hkeys : (ofList entries).byCode.keys.Perm (entries.map (·.code)).dedup := by
    apply (List.perm_ext_iff_of_nodup Std.HashMap.nodup_keys (List.nodup_dedup _)).2
    intro code
    rw [Std.HashMap.mem_keys, List.mem_dedup, ofList, mem_foldl_insert]
    simp
  rw [size, ← Std.HashMap.length_keys, hkeys.length_eq]

end Entries

theorem indexes_ofList (entries : List Abbreviation) : (ofList entries).Indexes entries := by
  refine ⟨size_ofList entries, ?_, ?_⟩
  · intro before a after heq hafter
    have hlast : (ofList entries).byCode[a.code]? = some a := by
      rw [heq, ofList, List.foldl_append, List.foldl_cons, getElem?_foldl_insert hafter,
        Std.HashMap.getElem?_insert_self]
    rw [get, hlast]
  · intro code hcode
    have hnone : (ofList entries).byCode[code]? = none := by
      rw [ofList, getElem?_foldl_insert hcode]
      exact Std.HashMap.getElem?_empty
    rw [get, hnone]

/-- The abbreviations that have a spelling are those that a table can hold. A table of them is
decoded wherever it begins and whatever follows it, and fails to be if any of its last bytes are
missing. -/
theorem decode_spell :
    (∀ a : Abbreviation, a.Encodable ↔ ∃ x : SpelledAbbreviation, x.abbreviation = a) ∧
      ∀ (xs : List SpelledAbbreviation) (w : Window) (pos : Nat),
        (w.Holds pos (spell xs) →
          ∃ table, AbbreviationTable.decode w pos = .ok table (pos + (spell xs).length) ∧
            table.Indexes (xs.map (·.abbreviation))) ∧
        ∀ read, read <+: spell xs → read ≠ spell xs → w.EndsWith pos read →
          AbbreviationTable.decode w pos = .error (.truncated w.limit 1 0) w.limit := by
  refine ⟨fun _ => Abbreviation.encodable_iff_exists_spelled, ?_⟩
  intro xs w pos
  constructor
  · intro h
    exact ⟨_, AbbreviationTable.reads_decode xs rfl h, indexes_ofList _⟩
  · intro read hread hne hw
    exact needsAll_decode xs rfl hread hne hw

theorem spells_string :
    AttributeSpec.Spells
      { name := Leb128.unsigned [0x03], form := .string }
      ([0x03] ++ [0x08]) :=
  .plain (.last rfl) (.last rfl) (by decide) (.named rfl) (.listed (by decide)) (by decide)

theorem spells_storedConstant :
    AttributeSpec.Spells
      { name := Leb128.unsigned [0x0b], form := .implicitConst
        implicitConst := some (Leb128.signed [0x7e]) }
      ([0x0b] ++ ([0x21] ++ [0x7e])) :=
  .stored (.last rfl) (.last rfl) rfl (.last rfl)

/-- An abbreviation whose code is written with more bytes than it needs. -/
def paddedCode : SpelledAbbreviation where
  code := [0x87, 0x00]
  tag := [0x11]
  children := 1
  specs := [({ name := 0x03, form := .string }, [0x03, 0x08])]
  isGroup_code := .cons rfl (.last rfl)
  isGroup_tag := .last rfl
  code_ne_zero := by decide
  spells := List.forall_mem_singleton.2 spells_string

/-- An abbreviation with the same code that stores a constant. -/
def storedConstant : SpelledAbbreviation where
  code := [0x07]
  tag := [0x2e]
  children := 0
  specs := [({ name := 0x0b, form := .implicitConst, implicitConst := some (-2) },
    [0x0b, 0x21, 0x7e])]
  isGroup_code := .last rfl
  isGroup_tag := .last rfl
  code_ne_zero := by decide
  spells := List.forall_mem_singleton.2 spells_storedConstant

def sharedCodeBytes : ByteArray :=
  ⟨#[0xff, 0x87, 0, 0x11, 1, 3, 8, 0, 0, 7, 0x2e, 0, 0x0b, 0x21, 0x7e, 0, 0, 0, 0xff]⟩

/-- A window that ends at some offset of a table. -/
def sharedCodeWindow (stop : Nat) : Window :=
  { data := sharedCodeBytes, region := { start := 0, stop, order := .little } }

/-- The table without its last four bytes. -/
def sharedCodeStart : List UInt8 := [0x87, 0, 0x11, 1, 3, 8, 0, 0, 7, 0x2e, 0, 0x0b, 0x21]

theorem endsWith_sharedCodeStart : (sharedCodeWindow 14).EndsWith 1 sharedCodeStart :=
  ⟨⟨by decide, rfl⟩, by decide⟩

theorem decode_spell_sharedCode :
    let xs := [paddedCode, storedConstant]
    ((sharedCodeWindow 19).Holds 1 (spell xs) ∧
      ∃ table, AbbreviationTable.decode (sharedCodeWindow 19) 1 = .ok table 18 ∧ table.size = 1 ∧
        table.get 7 = .ok storedConstant.abbreviation ∧
        table.get 2 = .error (.unknownAbbreviation 2)) ∧
      sharedCodeStart <+: spell xs ∧ sharedCodeStart ≠ spell xs ∧
      (sharedCodeWindow 14).EndsWith 1 sharedCodeStart ∧
      AbbreviationTable.decode (sharedCodeWindow 14) 1 = .error (.truncated 14 1 0) 14 := by
  intro xs
  have hbytes : spell xs =
      [0x87, 0, 0x11, 1, 3, 8, 0, 0, 7, 0x2e, 0, 0x0b, 0x21, 0x7e, 0, 0, 0] := rfl
  have hholds : (sharedCodeWindow 19).Holds 1 (spell xs) := by
    rw [hbytes]
    exact ⟨by decide, rfl⟩
  have hprefix : sharedCodeStart <+: spell xs := ⟨[0x7e, 0, 0, 0], hbytes.symm⟩
  have hne : sharedCodeStart ≠ spell xs := by
    rw [hbytes]
    decide
  have hlimit : (sharedCodeWindow 14).limit = 14 := by decide
  obtain ⟨table, hdecode, hsize, hlast, hunknown⟩ :=
    (decode_spell.2 xs (sharedCodeWindow 19) 1).1 hholds
  have hcut := (decode_spell.2 xs (sharedCodeWindow 14) 1).2 _ hprefix hne endsWith_sharedCodeStart
  rw [hbytes] at hdecode
  rw [hlimit] at hcut
  refine ⟨⟨hholds, table, hdecode, ?_, ?_, ?_⟩, hprefix, hne, endsWith_sharedCodeStart, hcut⟩
  · rw [hsize]
    decide
  · exact hlast [paddedCode.abbreviation] _ [] rfl (List.forall_mem_nil _)
  · exact hunknown 2 (by decide)

end AbbreviationTable

end StackSurvey.Dwarf
