import StackSurvey.Proofs.Dwarf.AbbreviationBytes
import StackSurvey.Proofs.Dwarf.EntryTree
import StackSurvey.Proofs.Dwarf.WrittenValue

namespace StackSurvey.Dwarf

open Decoder

variable {d : DebugInfo} {u : DebugUnit}

/-- How a unit writes a value for a spec: the table of abbreviations stores it, or the entry has its
bytes behind any indirections. -/
inductive AttributeSpec.Writes (d : DebugInfo) (u : DebugUnit) :
    AttributeSpec → AttributeValue → List UInt8 → Prop
  | stored {name : UInt64} {n : Int64} {value : AttributeValue}
      (h : value = .signed n ∨ value = .unsigned n.toUInt64) :
      Writes d u { name, form := .implicitConst, implicitConst := some n } value []
  | encoded {spec : AttributeSpec} {value : AttributeValue} {bytes : List UInt8}
      (h : spec.form.Chain (value.Written d u) bytes) : Writes d u spec value bytes

namespace AttributeSpec.Writes

variable {spec : AttributeSpec} {value : AttributeValue} {bytes : List UInt8} {offset : Nat}

theorem encodes (h : spec.Writes d u value bytes) :
    spec.form.Encodes u.region u.header.version bytes := by
  cases h with
  | stored => exact .direct Form.noConfusion .elsewhere
  | encoded h => exact h.encodes fun _ _ hvalue => hvalue.spans

/-- The attribute that is found where a value was written is read as that value. -/
theorem exists_ofSpec {stop : Nat} (hd : Consecutive d.units.toList stop)
    (h : spec.Writes d u value bytes) (hw : u.window.Holds offset bytes) :
    ∃ a, Attribute.ofSpec u spec offset = .ok a ∧ value.ReadFrom d u a := by
  cases h with
  | @stored name n value hvalue =>
    have hfollow : Form.follow .implicitConst u.window offset = .ok .implicitConst offset := by
      rw [Form.follow_of_ne Form.noConfusion]
      rfl
    refine ⟨_, Attribute.ofSpec_of_follow hfollow, ?_⟩
    rcases hvalue with rfl | rfl <;> rfl
  | encoded h =>
    obtain ⟨form, start, rest, hfollow, hvalue, hrest⟩ := h.follow_eq hw
    exact ⟨_, Attribute.ofSpec_of_follow hfollow,
      hvalue.readFrom hd spec.name spec.implicitConst hrest⟩

end AttributeSpec.Writes

/-- A value that a unit writes for a spec. -/
structure WrittenAttribute (d : DebugInfo) (u : DebugUnit) where
  spec : AttributeSpec
  value : AttributeValue
  bytes : List UInt8
  writes : spec.Writes d u value bytes

/-- An entry as a unit writes it: its code, and a value for each spec of its abbreviation. -/
structure WrittenEntry (d : DebugInfo) (u : DebugUnit) where
  abbreviation : Abbreviation
  code : List UInt8
  attributes : List (WrittenAttribute d u)
  isGroup : Leb128.IsGroup code
  code_ne_zero : Leb128.unsigned code ≠ 0
  abbreviation_eq : ∃ table, u.abbreviations = .ok table ∧
    table.get (Leb128.unsigned code) = .ok abbreviation
  specs_eq : abbreviation.specs = attributes.map (·.spec)

namespace WrittenEntry

/-- The bytes of the entry. -/
def bytes (x : WrittenEntry d u) : List UInt8 := x.code ++ x.attributes.flatMap (·.bytes)

/-- The first attribute with a name. -/
def find? (x : WrittenEntry d u) (name : UInt64) : Option (WrittenAttribute d u) :=
  x.attributes.find? (·.spec.name == name)

/-- The entry without what its attributes mean. -/
def toEncoded (x : WrittenEntry d u) : EncodedEntry u where
  abbreviation := x.abbreviation
  code := x.code
  attributes := x.attributes.map fun a => (a.spec, a.bytes)
  isGroup := x.isGroup
  code_ne_zero := x.code_ne_zero
  abbreviation_eq := x.abbreviation_eq
  specs_eq := by
    rw [x.specs_eq, List.map_map]
    rfl
  encodes := List.forall_mem_map.2 fun a _ => a.writes.encodes

theorem bytes_toEncoded (x : WrittenEntry d u) : x.toEncoded.bytes = x.bytes := by
  rw [EncodedEntry.bytes, toEncoded, List.flatMap_map]
  rfl

end WrittenEntry

/-- Reading what a unit writes of an entry succeeds, ends where the bytes end, and gives for each
name the value of the first attribute with that name. -/
theorem read_written {sections : DebugSections} {order : ByteOrder}
    (hd : DebugInfo.ofSections sections order = .ok d) (x : WrittenEntry d u) {offset : Nat}
    (hroot : u.header.rootOffset ≤ offset) (h : u.window.Holds offset x.bytes) (mode : ReadMode)
    (p : Progress) :
    ∃ e q, u.read u.resolver mode offset p = .ok e q ∧ e.nextOffset = offset + x.bytes.length ∧
      ∀ name a, x.find? name = some a →
        ∃ found, e.attr u name = .ok found ∧ a.value.ReadFrom d u found := by
  obtain ⟨stop, hconsecutive⟩ := DebugInfo.consecutive_of_ofSections hd
  have hfind := DebugUnit.find_entry x.toEncoded hroot (x.bytes_toEncoded ▸ h)
  obtain ⟨q, hread⟩ := DebugUnit.read_of_find hfind mode p
  refine ⟨_, q, hread, ?_, fun name a ha => ?_⟩
  · rw [Entry.nextOffset_readAs, ← x.bytes_toEncoded]
    rfl
  · have hfirst : x.toEncoded.attributes.find? (·.1.name == name) = some (a.spec, a.bytes) := by
      rw [WrittenEntry.toEncoded, List.find?_map]
      exact congrArg (Option.map _) ha
    have hvalues := (Window.holds_append.1 (x.bytes_toEncoded ▸ h)).2
    obtain ⟨start, hslot, hholds⟩ := find?_slotsAt (·.name == name) hfirst hvalues
    obtain ⟨found, hfound, hvalue⟩ := a.writes.exists_ofSpec hconsecutive hholds
    refine ⟨found, ?_, hvalue⟩
    have hslot : (x.toEncoded.entryAt offset).slot? name = some ⟨a.spec, start⟩ := hslot
    rw [Entry.attr_readAs, Entry.attr_of_slot? hslot]
    exact hfound

/-- The abbreviation of entries with a name, a reference behind an indirection and a constant that
the table stores. -/
def namedReference : SpelledAbbreviation where
  code := [5]
  tag := [0x34]
  children := 0
  specs :=
    [AttributeSpec.inBytes 0x03 .string, AttributeSpec.inBytes 0x49 .indirect,
      ({ name := 0x0b, form := .implicitConst, implicitConst := some (-2) }, [0x0b, 0x21, 0x7e])]
  isGroup_code := .last rfl
  isGroup_tag := .last rfl
  code_ne_zero := by decide
  spells := by
    refine List.forall_mem_cons.2 ⟨?_, List.forall_mem_cons.2 ⟨?_, List.forall_mem_singleton.2 ?_⟩⟩
    · exact AttributeSpec.spells_inBytes rfl rfl (by decide)
    · exact AttributeSpec.spells_inBytes rfl rfl (by decide)
    · exact AbbreviationTable.spells_storedConstant

/-- A unit with one entry, which refers to itself. -/
def referenceContents : LoneUnit where
  abbreviations := [namedReference]
  entries := [5, 0x61, 0, 0x10, 11, 0, 0, 0]

def referenceUnit : DebugUnit := referenceContents.unit

def referenceInfo : DebugInfo :=
  { sections := referenceContents.sections, units := #[referenceUnit] }

theorem written_reference :
    (AttributeValue.reference ⟨0, 11⟩).Written referenceInfo referenceUnit .refAddr
      [11, 0, 0, 0] :=
  @AttributeValue.Written.reference referenceInfo referenceUnit referenceUnit 11
    (Array.mem_singleton.2 rfl) rfl rfl (by decide)

/-- The entry of the unit: its name, a reference to itself and the stored constant. -/
def referenceEntry : WrittenEntry referenceInfo referenceUnit where
  abbreviation := namedReference.abbreviation
  code := namedReference.code
  attributes :=
    [{ spec := { name := 0x03, form := .string }, value := .string (Utf8.lossy [0x61])
       bytes := [0x61, 0], writes := .encoded (.direct Form.noConfusion (.string (by decide))) },
      { spec := { name := 0x49, form := .indirect }, value := .reference ⟨0, 11⟩
        bytes := [0x10, 11, 0, 0, 0]
        writes := .encoded
          (.indirect (.last rfl) (.named rfl) (.direct Form.noConfusion written_reference)) },
      { spec := { name := 0x0b, form := .implicitConst, implicitConst := some (-2) }
        value := .signed (-2), bytes := [], writes := .stored (.inl rfl) }]
  isGroup := namedReference.isGroup_code
  code_ne_zero := namedReference.code_ne_zero
  abbreviation_eq := ⟨referenceContents.table, rfl, referenceContents.get_of_mem (.head _)⟩
  specs_eq := rfl

theorem read_written_referenceEntry :
    DebugInfo.ofSections referenceContents.sections .little = .ok referenceInfo ∧
    ∃ e q, referenceUnit.read referenceUnit.resolver .full 11 {} = .ok e q ∧ e.nextOffset = 19 ∧
      (∃ a, e.attr referenceUnit 0x03 = .ok a ∧ a.string referenceUnit = .ok "a") ∧
      (∃ a, e.attr referenceUnit 0x49 = .ok a ∧
        a.reference referenceInfo referenceUnit = .ok ⟨0, 11⟩) ∧
      ∃ a, e.attr referenceUnit 0x0b = .ok a ∧ a.signed referenceUnit = .ok (-2) := by
  have hentries : referenceContents.entries = [] ++ (referenceEntry.bytes ++ []) := rfl
  obtain ⟨e, q, hread, hnext, hvalues⟩ := read_written referenceContents.ofSections_sections
    referenceEntry (Nat.le_refl 11) (referenceContents.holds_entries hentries) .full {}
  exact ⟨referenceContents.ofSections_sections, e, q, hread, hnext, hvalues 0x03 _ rfl,
    hvalues 0x49 _ rfl, hvalues 0x0b _ rfl⟩

end StackSurvey.Dwarf
