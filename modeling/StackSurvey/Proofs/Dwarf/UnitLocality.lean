import StackSurvey.Proofs.Dwarf.Locality
import StackSurvey.Proofs.Dwarf.Navigation
import StackSurvey.Proofs.Dwarf.Restating

namespace StackSurvey.Dwarf

open Decoder

namespace DebugSections

variable {name : DebugSection}

theorem decodeAt_withInfo (sections : DebugSections) (info : Option ByteArray)
    (hname : name ≠ .info) (offset : UInt64) (order : ByteOrder) {α : Type} (d : Decoder α) :
    { sections with info }.decodeAt name offset order d =
      sections.decodeAt name offset order d := by
  cases name with
  | info => exact absurd rfl hname
  | _ => rfl

theorem textAt_withInfo (sections : DebugSections) (info : Option ByteArray)
    (hname : name ≠ .info) : { sections with info }.textAt name = sections.textAt name := by
  funext offset order
  exact decodeAt_withInfo sections info hname offset order Decoder.text

end DebugSections

/-- The same entry of a unit in another place among the units. -/
def Entry.inUnit (index : Nat) (e : Entry) : Entry := { e with unit := index }

/-- The same unit in two files: the bytes from its beginning to its end agree, and so do all other
sections. -/
structure DebugUnit.Mirrors (u v : DebugUnit) : Prop where
  header_eq : v.header = u.header
  abbreviations_eq : v.abbreviations = u.abbreviations
  sections_eq : v.sections = { u.sections with info := v.sections.info }
  agrees : u.window.Agrees v.window u.offset
  offset_le_root : u.offset ≤ u.header.rootOffset

variable {u v : DebugUnit}

namespace Entry

theorem local_decodeSlots (version : Nat) (specs : List AttributeSpec) :
    (decodeSlots version specs).Local := by
  induction specs with
  | nil => exact local_pure _
  | cons spec specs ih =>
    apply local_position.bind progresses_position
    intro offset
    apply (spec.form.local_skipValue version).bind (spec.form.progresses_skipValue version)
    intro _
    exact ih.bind (progresses_decodeSlots version specs) fun _ => local_pure _

theorem local_decode (u : DebugUnit) : (decode u).Local := by
  apply local_position.bind progresses_position
  intro offset
  apply local_uleb128.bind advances_uleb128.progresses
  intro code
  split
  · exact local_position.bind progresses_position fun _ => local_pure _
  · apply (local_ofExcept _).bind (progresses_ofExcept _)
    intro table
    apply (local_ofExcept _).bind (progresses_ofExcept _)
    intro abbreviation
    apply (local_decodeSlots _ _).bind (progresses_decodeSlots _ _)
    intro slots
    exact local_position.bind progresses_position fun _ => local_pure _

theorem le_offset_of_decodeSlots {version : Nat} {specs : List AttributeSpec} {w : Window}
    {pos next : Nat} {slots : List AttributeSlot}
    (h : decodeSlots version specs w pos = .ok slots next) :
    ∀ slot ∈ slots, pos ≤ slot.offset := by
  induction specs generalizing pos slots with
  | nil =>
    cases h
    exact List.forall_mem_nil _
  | cons spec specs ih =>
    obtain ⟨_, _, h₁, h⟩ := bind_eq_ok h
    cases h₁
    obtain ⟨_, mid, h₂, h⟩ := bind_eq_ok h
    obtain ⟨rest, _, h₃, h⟩ := bind_eq_ok h
    cases h
    have hmid := (spec.form.progresses_skipValue version h₂).1
    refine List.forall_mem_cons.2 ⟨Nat.le_refl pos, ?_⟩
    intro slot hslot
    exact Nat.le_trans hmid (ih h₃ slot hslot)

/-- The values of an entry begin at a position or behind it. -/
def Within (start : Nat) (e : Entry) : Prop := ∀ slot ∈ e.slots, start ≤ slot.offset

theorem within_of_decode {w : Window} {pos next : Nat} {e : Entry}
    (h : decode u w pos = .ok e next) : e.Within pos := by
  obtain ⟨_, _, h₁, h⟩ := bind_eq_ok h
  cases h₁
  obtain ⟨code, mid, h₂, h⟩ := bind_eq_ok h
  have hcode := (advances_uleb128 h₂).1
  split at h
  · obtain ⟨_, _, _, h⟩ := bind_eq_ok h
    cases h
    exact List.forall_mem_nil _
  · obtain ⟨_, _, h₃, h⟩ := bind_eq_ok h
    obtain ⟨_, _, h₄, h⟩ := bind_eq_ok h
    obtain ⟨slots, _, h₅, h⟩ := bind_eq_ok h
    obtain ⟨_, _, _, h⟩ := bind_eq_ok h
    cases h
    have hthird := (progresses_ofExcept _ h₃).1
    have hfourth := (progresses_ofExcept _ h₄).1
    intro slot hslot
    have := le_offset_of_decodeSlots h₅ slot hslot
    omega

theorem decode_inUnit (habbreviations : v.abbreviations = u.abbreviations)
    (hheader : v.header = u.header) : decode v = inUnit v.index <$> decode u := by
  rw [decode, decode, habbreviations, hheader]
  simp only [map_bind, apply_ite, map_pure]
  rfl

end Entry

namespace DebugUnit

theorem within_of_find {offset : Nat} {e : Entry} (h : u.find offset = .ok e) :
    e.Within offset := by
  unfold find at h
  split at h
  · unfold decodeAt at h
    split at h <;> cases h
    exact Entry.within_of_decode ‹_›
  · cases h

namespace Mirrors

variable {α : Type} {offset : Nat} {d : Decoder α}

theorem region_eq (h : Mirrors u v) : v.region = u.region := h.agrees.region_eq.symm

theorem decodeAt_eq (h : Mirrors u v) (hd : d.Local) (hle : u.offset ≤ offset) :
    v.decodeAt offset d = u.decodeAt offset d := by
  rw [decodeAt, decodeAt, hd (h.agrees.mono hle)]

theorem find_eq (h : Mirrors u v) (offset : Nat) :
    v.find offset = (u.find offset).map (Entry.inUnit v.index) := by
  have hcontains : v.containsOffset offset = u.containsOffset offset := by
    rw [containsOffset, containsOffset, h.header_eq, h.region_eq]
  rw [find, find, hcontains]
  split
  · rename_i hin
    have hroot : u.header.rootOffset ≤ offset := by
      rw [containsOffset, Bool.and_eq_true, decide_eq_true_eq] at hin
      exact hin.1
    -- No entry begins before the root, so the bytes before the unit are not read.
    rw [Entry.decode_inUnit h.abbreviations_eq h.header_eq, decodeAt_map,
      h.decodeAt_eq (Entry.local_decode u) (Nat.le_trans h.offset_le_root hroot)]
  · rfl

end Mirrors

end DebugUnit

namespace DebugUnit.Mirrors

variable {a : Attribute}

theorem blockAs_eq (h : Mirrors u v) (expected : Reading) (hle : u.offset ≤ a.offset) :
    a.blockAs v expected = a.blockAs u expected := by
  have hcounted (width : Nat) : (Decoder.unsigned width >>= bytes).Local :=
    (local_unsigned width).bind (progresses_unsigned width) local_bytes
  have hgroup : (uleb128 >>= fun n => bytes n.toNat).Local :=
    local_uleb128.bind advances_uleb128.progresses fun _ => local_bytes _
  simp only [Attribute.blockAs, h.decodeAt_eq (hcounted _) hle, h.decodeAt_eq hgroup hle]

theorem textAt_eq (h : Mirrors u v) {name : DebugSection} (hname : name ≠ .info) :
    v.sections.textAt name = u.sections.textAt name := by
  rw [h.sections_eq]
  exact DebugSections.textAt_withInfo _ _ hname

/-- An attribute whose value does not begin before the unit is read from the unit alone. -/
theorem readsAlike (h : Mirrors u v) (hle : u.offset ≤ a.offset) : a.ReadsAlike u v where
  address := by rw [Attribute.address, Attribute.address, h.decodeAt_eq local_address hle]
  unsigned := by
    simp only [Attribute.unsigned, h.decodeAt_eq (local_sized _) hle,
      h.decodeAt_eq local_uleb128 hle]
  sectionOffset := by
    simp only [Attribute.sectionOffset, h.decodeAt_eq (local_sized _) hle,
      h.decodeAt_eq local_offset hle]
  string := by
    rw [Attribute.string, Attribute.string, h.region_eq, h.decodeAt_eq local_text hle,
      h.decodeAt_eq local_offset hle, h.textAt_eq DebugSection.noConfusion,
      h.textAt_eq DebugSection.noConfusion]
  expression := by
    rw [Attribute.expression, Attribute.expression, h.region_eq, h.blockAs_eq .expression hle]

end DebugUnit.Mirrors

namespace Entry

variable {e : Entry} {name : UInt64} {a : Attribute}

theorem le_offset_of_ofSpec {spec : AttributeSpec} {offset : Nat}
    (h : Attribute.ofSpec u spec offset = .ok a) : offset ≤ a.offset := by
  rw [Attribute.ofSpec, DebugUnit.decodeAt] at h
  split at h
  · rename_i hdecode
    cases h
    obtain ⟨form, mid, h₁, h₂⟩ := bind_eq_ok hdecode
    obtain ⟨_, _, h₂, h₃⟩ := bind_eq_ok h₂
    cases h₂
    cases h₃
    exact (spec.form.progresses_follow h₁).1
  · cases h

theorem local_ofSpec (spec : AttributeSpec) :
    (do
      let form ← spec.form.follow
      return { name := spec.name, form, offset := ← position, implicitConst := spec.implicitConst }
        : Decoder Attribute).Local := by
  apply spec.form.local_follow.bind spec.form.progresses_follow
  intro form
  exact local_position.bind progresses_position fun _ => local_pure _

theorem attr_inUnit (h : u.Mirrors v) (he : e.Within u.offset) (name : UInt64) :
    (e.inUnit v.index).attr v name = e.attr u name := by
  have hslots : (e.inUnit v.index).slot? name = e.slot? name := rfl
  rw [attr, attr, hslots]
  cases hslot : e.slot? name with
  | none => rfl
  | some slot =>
    have hle := he slot (List.mem_of_find?_eq_some hslot)
    exact h.decodeAt_eq (local_ofSpec slot.spec) hle

theorem le_offset_of_attr (he : e.Within u.offset) (h : e.attr u name = .ok a) :
    u.offset ≤ a.offset := by
  unfold attr at h
  split at h
  · rename_i slot hslot
    exact Nat.le_trans (he slot (List.mem_of_find?_eq_some hslot)) (le_offset_of_ofSpec h)
  · cases h

theorem relabelling_inUnit (index : Nat) : Relabelling (inUnit index) where
  nextOffset_eq _ := rfl
  isTerminator_eq _ := rfl
  hasChildren_eq _ := rfl
  withDepth _ _ := rfl
  withName _ _ := rfl
  withPlace _ _ _ _ := rfl
  withPcRange _ _ := rfl
  withRanges _ _ _ := rfl

end Entry

namespace LineTable

variable (sections : DebugSections) (info : Option ByteArray)

theorem decodePath_withInfo :
    PathRecord.decodePath { sections with info } = PathRecord.decodePath sections := by
  funext form
  cases form <;> rfl

/-- No line table is read from `.debug_info`. -/
theorem load_withInfo (source : LineSource) :
    load { sections with info } source = load sections source := by
  have htable :
      PathRecord.decodeTable { sections with info } = PathRecord.decodeTable sections := by
    unfold PathRecord.decodeTable PathRecord.decodeField
    rw [decodePath_withInfo]
  have hdecode : decode { sections with info } = decode sections := by
    unfold decode decodeFromHeader decodeFiles
    rw [htable]
  rw [load, load, hdecode]
  exact DebugSections.decodeAt_withInfo sections info DebugSection.noConfusion ..

end LineTable

namespace DebugUnit.Mirrors

theorem restates (h : Mirrors u v) {offset : Nat} {e : Entry} (hfind : u.find offset = .ok e) :
    Restates u v e (e.inUnit v.index) := by
  have he : e.Within u.offset := by
    have hroot := (find_bounds hfind).2.2.2.1
    intro slot hslot
    have hle := within_of_find hfind slot hslot
    exact Nat.le_trans (Nat.le_trans h.offset_le_root hroot) hle
  refine ⟨h.header_eq, rfl, fun _ _ => rfl, ?_, ?_⟩
  · intro known _
    exact Entry.attr_inUnit h he known.code
  · intro known a hattr
    exact h.readsAlike (Entry.le_offset_of_attr he hattr)

theorem rangeList_eq (h : Mirrors u v) : v.rangeList = u.rangeList := by
  funext offset base
  rw [rangeList, rangeList, h.region_eq, h.header_eq, h.sections_eq]
  exact DebugSections.decodeAt_withInfo _ _ DebugSection.noConfusion ..

theorem load_eq (h : Mirrors u v) : LineTable.load v.sections = LineTable.load u.sections := by
  funext source
  rw [h.sections_eq]
  exact LineTable.load_withInfo ..

theorem restatedBy (h : Mirrors u v) : u.RestatedBy v (Entry.inUnit v.index) where
  relabelling := Entry.relabelling_inUnit v.index
  find_eq := h.find_eq
  restates _ _ hfind := h.restates hfind
  header_eq := h.header_eq
  region_eq := h.region_eq
  rangeList_eq := h.rangeList_eq
  line_eq := by rw [h.sections_eq]
  load_eq := h.load_eq

end DebugUnit.Mirrors

/-- Two units answer alike, whatever has been decoded of either. Of what they answer only the
place of the unit may differ. -/
structure DebugUnit.AnswersAs (u v : DebugUnit) : Prop where
  region_eq : v.region = u.region
  header_eq : v.header = u.header
  entries_eq : ∀ p q, ∃ entries, u.entries.answer p = .ok entries ∧
    v.entries.answer q = .ok (entries.map (Entry.inUnit v.index))
  lineTable_eq : ∀ p q, v.readLineTable.answer q = u.readLineTable.answer p
  base_eq : ∀ p q, v.readBase.answer q = u.readBase.answer p
  pcBounds_eq : ∀ p q, v.pcBounds.answer q = u.pcBounds.answer p

namespace DebugUnit

theorem answer_entries (u : DebugUnit) (p : Progress) : u.entries.answer p = .ok u.entryList := by
  obtain ⟨q, hq⟩ := u.entries_eq p
  exact Visit.answer_of_ok hq

theorem answer_pcBounds (u : DebugUnit) (p : Progress) :
    u.pcBounds.answer p = .ok (Entry.hull? (u.entryList.filterMap (·.pcRange))) := by
  obtain ⟨q, hq⟩ := u.entries_eq p
  rw [pcBounds, Visit.answer_bind hq]
  rfl

theorem Mirrors.answersAs (h : Mirrors u v) : u.AnswersAs v := by
  have hentries := h.restatedBy.entryList_eq
  have hranges : v.entryList.filterMap (·.pcRange) = u.entryList.filterMap (·.pcRange) := by
    rw [hentries, List.filterMap_map]
    rfl
  refine ⟨h.region_eq, h.header_eq, ?_, ?_, ?_, ?_⟩
  · intro p q
    refine ⟨u.entryList, u.answer_entries p, ?_⟩
    rw [v.answer_entries, hentries]
  · intro p q
    change Except.ok v.lineTable = Except.ok u.lineTable
    rw [h.restatedBy.lineTable_eq]
  · intro p q
    change Except.ok v.baseAddress = Except.ok u.baseAddress
    rw [h.restatedBy.baseAddress_eq]
  · intro p q
    rw [v.answer_pcBounds, u.answer_pcBounds, hranges]

end DebugUnit

end StackSurvey.Dwarf
