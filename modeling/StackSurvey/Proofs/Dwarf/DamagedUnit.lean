import StackSurvey.Proofs.Dwarf.Settling
import StackSurvey.Proofs.Dwarf.UnitLocality
import StackSurvey.Proofs.Dwarf.VisitOrder

namespace StackSurvey.Dwarf

open Decoder

/-- The same unit of two files. All sections but `.debug_info` agree, and that one does before a
position. -/
structure DebugUnit.SharesBelow (u v : DebugUnit) (k : Nat) : Prop where
  index_eq : v.index = u.index
  header_eq : v.header = u.header
  abbreviations_eq : v.abbreviations = u.abbreviations
  sections_eq : v.sections = { u.sections with info := v.sections.info }
  window : u.window.SharesBelow v.window k

variable {u v : DebugUnit} {k : Nat}

namespace Entry

theorem relabelling_id : Relabelling id where
  nextOffset_eq _ := rfl
  isTerminator_eq _ := rfl
  hasChildren_eq _ := rfl
  withDepth _ _ := rfl
  withName _ _ := rfl
  withPlace _ _ _ _ := rfl
  withPcRange _ _ := rfl
  withRanges _ _ _ := rfl

theorem settledBy_ofSpec (spec : AttributeSpec) (version : Nat) :
    (do
      let form ← spec.form.follow
      return { name := spec.name, form, offset := ← position, implicitConst := spec.implicitConst }
        : Decoder Attribute).SettledBy (spec.form.skipValue version) :=
  spec.form.settledBy_follow.bind fun form =>
    (settledBy_position (form.extent.progresses_skip version)).map _

end Entry

namespace DebugUnit

namespace SharesBelow

variable {α : Type} {offset : Nat} {e : Entry} {a : Attribute} {d : Decoder α}

theorem region_eq (h : u.SharesBelow v k) : v.region = u.region := h.window.region_eq

theorem symm (h : u.SharesBelow v k) : v.SharesBelow u k where
  index_eq := h.index_eq.symm
  header_eq := h.header_eq.symm
  abbreviations_eq := h.abbreviations_eq.symm
  sections_eq := by rw [h.sections_eq]
  window := h.window.symm

theorem decode_eq (h : u.SharesBelow v k) : Entry.decode v = Entry.decode u := by
  unfold Entry.decode
  rw [h.index_eq, h.header_eq, h.abbreviations_eq]

/-- An entry that ends before the damage is found as it was. -/
theorem find_of_find (h : u.SharesBelow v k) (hfind : u.find offset = .ok e)
    (hk : e.nextOffset ≤ k) : v.find offset = .ok e := by
  obtain ⟨-, hlt, hlimit, hroot, -⟩ := find_bounds hfind
  have hpos : offset ≤ u.window.limit := Nat.le_trans (Nat.le_of_lt hlt) hlimit
  refine find_of_decode e.nextOffset (h.header_eq ▸ hroot) ?_
  rw [h.decode_eq]
  exact (Entry.settledBy_decode u).eq_ok h.window hpos (decode_of_find hfind) hk

theorem decodeAt_eq (h : u.SharesBelow v k) (ha : a.EndsBy u k)
    (hd : d.SettledBy (a.form.extent.skip u.header.version)) :
    v.decodeAt a.offset d = u.decodeAt a.offset d := by
  obtain ⟨hpos, stop, hskip, hstop⟩ := ha
  rw [decodeAt, decodeAt, hd.eq h.window hpos hskip hstop]

theorem textAt_eq (h : u.SharesBelow v k) {name : DebugSection} (hname : name ≠ .info) :
    v.sections.textAt name = u.sections.textAt name := by
  rw [h.sections_eq]
  exact DebugSections.textAt_withInfo _ _ hname

theorem address_eq (h : u.SharesBelow v k) (ha : a.EndsBy u k) : a.address v = a.address u := by
  obtain ⟨name, form, pos, implicitConst⟩ := a
  cases form
  case addr => exact h.decodeAt_eq ha (settledBy_address _)
  all_goals rfl

theorem unsigned_eq (h : u.SharesBelow v k) (ha : a.EndsBy u k) :
    a.unsigned v = a.unsigned u := by
  obtain ⟨name, form, pos, implicitConst⟩ := a
  cases form
  case data1 | data2 | data4 | data8 => exact h.decodeAt_eq ha (settledBy_sized _)
  case udata => exact h.decodeAt_eq ha settledBy_uleb128.ignored
  all_goals rfl

theorem sectionOffset_eq (h : u.SharesBelow v k) (ha : a.EndsBy u k) :
    a.sectionOffset v = a.sectionOffset u := by
  obtain ⟨name, form, pos, implicitConst⟩ := a
  cases form
  case data4 | data8 => exact h.decodeAt_eq ha (settledBy_sized _)
  case secOffset => exact h.decodeAt_eq ha (settledBy_offset _)
  all_goals rfl

theorem blockAs_eq (h : u.SharesBelow v k) (ha : a.EndsBy u k) (expected : Reading) :
    a.blockAs v expected = a.blockAs u expected := by
  obtain ⟨name, form, pos, implicitConst⟩ := a
  cases form
  case block1 | block2 | block4 => exact h.decodeAt_eq ha (settledBy_counted _)
  case block | exprloc =>
    exact h.decodeAt_eq ha (settledBy_uleb128.bind fun n => settledBy_bytes n.toNat)
  all_goals rfl

/-- The offset of a text is read from the unit, the text itself from another section. -/
theorem textBehind_eq (h : u.SharesBelow v k) (ha : a.EndsBy u k) (hform : a.form.extent = .offset)
    {name : DebugSection} (hname : name ≠ .info) :
    (v.decodeAt a.offset Decoder.offset >>= fun offset =>
        v.sections.textAt name offset v.region.order) =
      u.decodeAt a.offset Decoder.offset >>= fun offset =>
        u.sections.textAt name offset u.region.order := by
  have hoffset := h.decodeAt_eq ha (hform ▸ settledBy_offset u.header.version)
  rw [h.region_eq, h.textAt_eq hname, hoffset]

theorem string_eq (h : u.SharesBelow v k) (ha : a.EndsBy u k) : a.string v = a.string u := by
  obtain ⟨name, form, pos, implicitConst⟩ := a
  cases form
  case string =>
    exact h.decodeAt_eq ha
      ((exact_terminated.settledBy advances_terminated.progresses).ignored.map Utf8.lossy)
  case strp => exact h.textBehind_eq ha rfl DebugSection.noConfusion
  case lineStrp => exact h.textBehind_eq ha rfl DebugSection.noConfusion
  all_goals rfl

theorem readsAlike (h : u.SharesBelow v k) (ha : a.EndsBy u k) : a.ReadsAlike u v where
  address := h.address_eq ha
  unsigned := h.unsigned_eq ha
  sectionOffset := h.sectionOffset_eq ha
  string := h.string_eq ha
  expression := by
    rw [Attribute.expression, Attribute.expression, h.region_eq, h.blockAs_eq ha]

/-- Indirections that are followed before the damage lead to the same form. -/
theorem ofSpec_eq (h : u.SharesBelow v k) {slot : AttributeSlot} (hslot : slot.EndsBy u k) :
    Attribute.ofSpec v slot.spec slot.offset = Attribute.ofSpec u slot.spec slot.offset := by
  obtain ⟨hpos, stop, hskip, hstop⟩ := hslot
  rw [Attribute.ofSpec, Attribute.ofSpec, decodeAt, decodeAt,
    (Entry.settledBy_ofSpec slot.spec u.header.version).eq h.window hpos hskip hstop]

theorem attr_eq (h : u.SharesBelow v k) (he : ∀ slot ∈ e.slots, slot.EndsBy u k) (name : UInt64) :
    e.attr v name = e.attr u name := by
  rw [Entry.attr, Entry.attr]
  cases hslot : e.slot? name with
  | none => rfl
  | some slot => exact h.ofSpec_eq (he slot (List.mem_of_find?_eq_some hslot))

theorem endsBy_of_attr (he : ∀ slot ∈ e.slots, slot.EndsBy u k) {name : UInt64}
    (h : e.attr u name = .ok a) : a.EndsBy u k := by
  unfold Entry.attr at h
  split at h
  · rename_i slot hslot
    exact (he slot (List.mem_of_find?_eq_some hslot)).of_ofSpec h
  · cases h

/-- An entry that ends before the damage states what it stated. -/
theorem restates (h : u.SharesBelow v k) (hfind : u.find offset = .ok e)
    (hk : e.nextOffset ≤ k) : Restates u v e e := by
  have hslots : ∀ slot ∈ e.slots, slot.EndsBy u k := by
    intro slot hslot
    obtain ⟨hpos, stop, hskip, hstop⟩ := endsBy_of_find hfind slot hslot
    exact ⟨hpos, stop, hskip, Nat.le_trans hstop hk⟩
  refine ⟨h.header_eq, rfl, fun _ _ => rfl, ?_, ?_⟩
  · intro known _
    exact h.attr_eq hslots known.code
  · intro known a hattr
    exact h.readsAlike (endsBy_of_attr hslots hattr)

theorem rangeList_eq (h : u.SharesBelow v k) : v.rangeList = u.rangeList := by
  funext offset base
  rw [rangeList, rangeList, h.region_eq, h.header_eq, h.sections_eq]
  exact DebugSections.decodeAt_withInfo _ _ DebugSection.noConfusion ..

theorem load_eq (h : u.SharesBelow v k) :
    LineTable.load v.sections = LineTable.load u.sections := by
  funext source
  rw [h.sections_eq]
  exact LineTable.load_withInfo ..

theorem line_eq (h : u.SharesBelow v k) : v.sections.line = u.sections.line := by
  rw [h.sections_eq]

/-- Where the root ends before the damage, so does everything that the tables are loaded by: an
entry before the damage is listed as it was. -/
theorem listed_eq (h : u.SharesBelow v k) {root : Entry}
    (hroot : u.find u.header.rootOffset = .ok root) (hrootStop : root.nextOffset ≤ k)
    (hfind : u.find offset = .ok e) (hk : e.nextOffset ≤ k) (depth : Nat) :
    v.listed v.resolver depth e = u.listed u.resolver depth e := by
  have hroot' : v.find v.header.rootOffset = .ok root :=
    h.header_eq ▸ h.find_of_find hroot hrootStop
  have hstates := h.restates hroot hrootStop
  have hresolve := Entry.relabelling_id.resolve_eq (h.restates hfind hk)
    (lineTable_congr hroot hroot' hstates h.region_eq h.line_eq h.load_eq)
    (baseAddress_congr hroot hroot' hstates) h.rangeList_eq
  rw [listed, listed]
  exact congrArg (fun e => { e with depth }) hresolve

end SharesBelow

/-- Entries that end before a position or there. -/
def endingBy (k : Nat) (entries : List Entry) : List Entry := entries.filter (·.nextOffset ≤ k)

theorem endingBy_cons (k : Nat) (e : Entry) (entries : List Entry) :
    endingBy k (e :: entries) =
      if e.nextOffset ≤ k then e :: endingBy k entries else endingBy k entries := by
  rw [endingBy, List.filter_cons]
  simp only [decide_eq_true_eq]
  rfl

theorem nextOffset_le_of_mem_walk {x : Entry} {offset : Nat} (h : u.find offset = .ok x)
    (depth : Nat) : ∀ e ∈ u.walk u.resolver offset depth, x.nextOffset ≤ e.nextOffset := by
  have hrest (depth : Nat) :
      ∀ e ∈ u.walk u.resolver x.nextOffset depth, x.nextOffset ≤ e.nextOffset := by
    intro e he
    have hlists := u.listsFrom_walk x.nextOffset depth
    exact Nat.le_trans (hlists.ascends.le e he) (Nat.le_of_lt (hlists.yields e he).places.lt_next)
  have hfirst : x.nextOffset ≤ (u.listed u.resolver depth x).nextOffset :=
    Nat.le_of_eq (Entry.nextOffset_resolve ..).symm
  rw [walk_of_find h]
  split
  · split
    · exact List.forall_mem_nil _
    · exact hrest _
  · split
    · exact List.forall_mem_cons.2 ⟨hfirst, hrest _⟩
    · split
      · exact List.forall_mem_singleton.2 hfirst
      · exact List.forall_mem_cons.2 ⟨hfirst, hrest _⟩

/-- Behind an entry that does not end before a position, no entry does. -/
theorem endingBy_walk_eq_nil {offset : Nat}
    (h : ¬ ∃ e, u.find offset = .ok e ∧ e.nextOffset ≤ k) (depth : Nat) :
    endingBy k (u.walk u.resolver offset depth) = [] := by
  refine List.filter_eq_nil_iff.2 fun e he hle => ?_
  cases hfind : u.find offset with
  | error fault =>
    rw [walk_of_error hfind] at he
    cases he
  | ok x =>
    have hx := nextOffset_le_of_mem_walk hfind depth e he
    exact h ⟨x, hfind, Nat.le_trans hx (of_decide_eq_true hle)⟩

namespace SharesBelow

theorem not_exists_find (h : u.SharesBelow v k) {offset : Nat}
    (hnone : ¬ ∃ e, u.find offset = .ok e ∧ e.nextOffset ≤ k) :
    ¬ ∃ e, v.find offset = .ok e ∧ e.nextOffset ≤ k := by
  rintro ⟨e, hfind, hk⟩
  exact hnone ⟨e, h.symm.find_of_find hfind hk, hk⟩

/-- A walk passes the entries before the damage in both units, and lists none of them behind it. -/
theorem endingBy_walk_eq (h : u.SharesBelow v k) {root : Entry}
    (hroot : u.find u.header.rootOffset = .ok root) (hrootStop : root.nextOffset ≤ k)
    (offset depth : Nat) :
    endingBy k (v.walk v.resolver offset depth) = endingBy k (u.walk u.resolver offset depth) := by
  induction hn : u.region.stop - offset using Nat.strongRecOn generalizing offset depth with
  | ind n ih =>
    by_cases hearly : ∃ e, u.find offset = .ok e ∧ e.nextOffset ≤ k
    · obtain ⟨e, hfind, hk⟩ := hearly
      obtain ⟨-, hlt, -, -, hstop⟩ := find_bounds hfind
      have hrest (depth : Nat) : endingBy k (v.walk v.resolver e.nextOffset depth) =
          endingBy k (u.walk u.resolver e.nextOffset depth) := ih _ (by omega) _ depth rfl
      rw [walk_of_find (h.find_of_find hfind hk), walk_of_find hfind,
        h.listed_eq hroot hrootStop hfind hk]
      split
      · split
        · rfl
        · exact hrest _
      · split
        · rw [endingBy_cons, endingBy_cons, hrest]
        · split
          · rfl
          · rw [endingBy_cons, endingBy_cons, hrest]
    · rw [endingBy_walk_eq_nil hearly, endingBy_walk_eq_nil (h.not_exists_find hearly)]

theorem endingBy_entryList_eq (h : u.SharesBelow v k) :
    endingBy k v.entryList = endingBy k u.entryList := by
  rw [entryList, entryList, h.header_eq]
  by_cases hearly : ∃ root, u.find u.header.rootOffset = .ok root ∧ root.nextOffset ≤ k
  · obtain ⟨root, hroot, hrootStop⟩ := hearly
    exact h.endingBy_walk_eq hroot hrootStop _ _
  · rw [endingBy_walk_eq_nil hearly, endingBy_walk_eq_nil (h.not_exists_find hearly)]

end SharesBelow

end DebugUnit

end StackSurvey.Dwarf
