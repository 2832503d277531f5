import StackSurvey.Proofs.Dwarf.Navigation
import StackSurvey.Proofs.Dwarf.Restating

namespace StackSurvey.Dwarf

open Decoder

variable {u : DebugUnit}

namespace KnownAttribute

theorem code_ne_zero (known : KnownAttribute) : known.code ≠ 0 := by
  cases known <;> decide

theorem code_ne_sibling {known : KnownAttribute} (h : known ≠ .sibling) :
    known.code ≠ KnownAttribute.sibling.code := by
  revert h
  cases known <;> decide

end KnownAttribute

/-- A spec under a name that no reading asks for, if it has that of a sibling. -/
def AttributeSpec.unlink (spec : AttributeSpec) : AttributeSpec :=
  if spec.name = KnownAttribute.sibling.code then { spec with name := 0 } else spec

def AttributeSlot.unlink (slot : AttributeSlot) : AttributeSlot :=
  { slot with spec := slot.spec.unlink }

def Abbreviation.unlink (a : Abbreviation) : Abbreviation :=
  { a with specs := a.specs.map AttributeSpec.unlink }

def AbbreviationTable.unlink (table : AbbreviationTable) : AbbreviationTable :=
  ⟨table.byCode.map fun _ => Abbreviation.unlink⟩

/-- An entry without sibling attributes. -/
def Entry.unlink (e : Entry) : Entry :=
  { e with
    abbreviation := e.abbreviation.map Abbreviation.unlink
    slots := e.slots.map AttributeSlot.unlink }

/-- The unit with the same bytes, none of whose abbreviations names a sibling. -/
def DebugUnit.unlink (u : DebugUnit) : DebugUnit :=
  { u with abbreviations := u.abbreviations.map AbbreviationTable.unlink }

theorem AttributeSpec.form_unlink (spec : AttributeSpec) : spec.unlink.form = spec.form := by
  unfold unlink
  split <;> rfl

theorem AttributeSpec.name_unlink_ne (spec : AttributeSpec) :
    spec.unlink.name ≠ KnownAttribute.sibling.code := by
  unfold unlink
  split
  · exact (KnownAttribute.code_ne_zero .sibling).symm
  · assumption

theorem AbbreviationTable.get_unlink (table : AbbreviationTable) (code : UInt64) :
    table.unlink.get code = (table.get code).map Abbreviation.unlink := by
  rw [get, get, unlink, Std.HashMap.getElem?_map]
  cases table.byCode[code]? <;> rfl

namespace Entry

theorem decodeSlots_unlink (version : Nat) (specs : List AttributeSpec) :
    decodeSlots version (specs.map AttributeSpec.unlink) =
      List.map AttributeSlot.unlink <$> decodeSlots version specs := by
  induction specs with
  | nil => rfl
  | cons spec specs ih =>
    rw [List.map_cons, decodeSlots, decodeSlots, ih, AttributeSpec.form_unlink]
    simp only [map_bind, map_pure, bind_map_left]
    rfl

theorem decode_unlink (u : DebugUnit) : decode u.unlink = Entry.unlink <$> decode u := by
  rw [decode, decode, map_bind]
  refine bind_congr fun offset => ?_
  rw [map_bind]
  refine bind_congr fun code => ?_
  split
  · rfl
  · have habbreviations : u.unlink.abbreviations = u.abbreviations.map AbbreviationTable.unlink :=
      rfl
    rw [habbreviations]
    cases u.abbreviations with
    | error fault => rfl
    | ok table =>
      change (ofExcept (table.unlink.get code) >>= _ : Decoder Entry) =
        Entry.unlink <$> (ofExcept (table.get code) >>= _ : Decoder Entry)
      rw [table.get_unlink]
      cases table.get code with
      | error fault => rfl
      | ok a =>
        change (decodeSlots u.header.version (a.specs.map AttributeSpec.unlink) >>= _) =
          _ <$> (decodeSlots u.header.version a.specs >>= _)
        rw [decodeSlots_unlink, bind_map_left, map_bind]
        rfl

end Entry

namespace DebugUnit

theorem find_unlink (u : DebugUnit) (offset : Nat) :
    u.unlink.find offset = (u.find offset).map Entry.unlink := by
  have hcontains : u.unlink.containsOffset offset = u.containsOffset offset := rfl
  have hdecode : u.unlink.decodeAt offset (Entry.decode u.unlink) =
      u.decodeAt offset (Entry.unlink <$> Entry.decode u) := by
    rw [Entry.decode_unlink]
    rfl
  rw [find, find, hcontains, hdecode, decodeAt_map]
  split <;> rfl

end DebugUnit

namespace Entry

variable {known : KnownAttribute}

theorem name_unlink_beq (spec : AttributeSpec) (h : known ≠ .sibling) :
    (spec.unlink.name == known.code) = (spec.name == known.code) := by
  have hne := KnownAttribute.code_ne_sibling h
  unfold AttributeSpec.unlink
  split
  · rename_i hname
    rw [hname, beq_eq_false_iff_ne.2 hne.symm, beq_eq_false_iff_ne.2 known.code_ne_zero.symm]
  · rfl

theorem slot?_unlink (e : Entry) (h : known ≠ .sibling) :
    e.unlink.slot? known.code = (e.slot? known.code).map AttributeSlot.unlink := by
  have hname : (fun slot : AttributeSlot => slot.unlink.spec.name == known.code) =
      fun slot => slot.spec.name == known.code :=
    funext fun slot => name_unlink_beq slot.spec h
  rw [slot?, unlink, List.find?_map]
  exact congrArg (fun p => (e.slots.find? p).map AttributeSlot.unlink) hname

theorem hasKnown_unlink (e : Entry) (h : known ≠ .sibling) :
    e.unlink.hasKnown known = e.hasKnown known := by
  rw [hasKnown, has, e.slot?_unlink h, Option.isSome_map]
  rfl

theorem attr_unlink (e : Entry) (h : known ≠ .sibling) :
    e.unlink.attr u.unlink known.code = e.attr u known.code := by
  rw [attr, e.slot?_unlink h, attr]
  cases hslot : e.slot? known.code with
  | none => rfl
  | some slot =>
    have hname : slot.spec.name = known.code := by simpa using List.find?_some hslot
    have hspec : slot.spec.unlink = slot.spec :=
      if_neg (hname ▸ KnownAttribute.code_ne_sibling h)
    change Attribute.ofSpec u slot.spec.unlink slot.offset = _
    rw [hspec]

theorem relabelling_unlink : Relabelling unlink where
  nextOffset_eq _ := rfl
  isTerminator_eq _ := Option.isNone_map
  hasChildren_eq e := by
    rw [hasChildren, unlink, Option.any_map]
    rfl
  withDepth _ _ := rfl
  withName _ _ := rfl
  withPlace _ _ _ _ := rfl
  withPcRange _ _ := rfl
  withRanges _ _ _ := rfl

end Entry

/-- What an entry says of itself is not stated by its sibling attribute. -/
theorem restates_unlink (u : DebugUnit) (e : Entry) : Restates u u.unlink e e.unlink where
  header_eq := rfl
  offset_eq := rfl
  hasKnown_eq _ h := e.hasKnown_unlink h
  attr_eq _ h := e.attr_unlink h
  readsAlike _ _ _ := ⟨rfl, rfl, rfl, rfl, rfl⟩

theorem restatedBy_unlink (u : DebugUnit) : u.RestatedBy u.unlink Entry.unlink where
  relabelling := Entry.relabelling_unlink
  find_eq := u.find_unlink
  restates _ e _ := restates_unlink u e
  header_eq := rfl
  region_eq := rfl
  rangeList_eq := rfl
  line_eq := rfl
  load_eq := rfl

/-- A unit without sibling attributes has the entries of the unit. -/
theorem relabels_unlink (u : DebugUnit) : Relabels u u.unlink Entry.unlink where
  find_eq := u.find_unlink
  nextOffset_eq _ := rfl
  depth_eq _ := rfl
  isTerminator_eq := Entry.relabelling_unlink.isTerminator_eq
  hasChildren_eq := Entry.relabelling_unlink.hasChildren_eq
  siblingTarget?_eq e := by
    left
    have hslot : e.unlink.slot? KnownAttribute.sibling.code = none := by
      refine List.find?_eq_none.2 fun slot hslot => ?_
      obtain ⟨slot, _, rfl⟩ := List.mem_map.1 hslot
      rw [beq_iff_eq]
      exact slot.spec.name_unlink_ne
    rw [Entry.siblingTarget?, Entry.value?, Entry.value, Entry.attr, hslot]
    rfl
  readAt_eq mode depth e := by
    cases mode with
    | fast => rfl
    | full =>
      rw [DebugUnit.readAt, Entry.readAs, (restatedBy_unlink u).resolve_eq (restates_unlink u e)]
      rfl

/-- In a unit that begins with a tree in which all stated siblings are true, every entry leads past
its own tree, to the entry there and to the entries directly below it. Without sibling attributes it
leads to the same. -/
theorem leads_of_mem_subtrees (u : DebugUnit) (t : EntryTree u)
    (h : u.window.Holds u.header.rootOffset t.bytes) (htrue : t.SiblingsTrue u.header.rootOffset)
    (x : PlacedTree u) (hx : x ∈ t.subtrees u.header.rootOffset none) (mode : ReadMode)
    (depth : Nat) :
    u.Leads (u.readAt mode depth x.found) x.stop
        (fun mode => x.next.map (u.readAt mode depth))
        (fun mode => x.children.map (u.readAt mode (depth + 1))) ∧
      u.unlink.Leads (u.readAt mode depth x.found).unlink x.stop
        (fun mode => x.next.map fun e => (u.readAt mode depth e).unlink)
        (fun mode => x.children.map fun e => (u.readAt mode (depth + 1) e).unlink) := by
  have hroot : PlacedTree.Holds ⟨u.header.rootOffset, t, none⟩ :=
    ⟨Nat.le_refl _, h, htrue, fun _ he => nomatch he⟩
  have hplaced := t.holds_of_mem_subtrees hroot x hx
  exact ⟨(Relabels.refl u).leads hplaced mode depth, (relabels_unlink u).leads hplaced mode depth⟩

/-- The abbreviation of entries that have children and state where their next sibling begins. -/
def linkedParent : SpelledAbbreviation :=
  .inBytes 3 0x11 true [(0x01, .ref1)] (by decide)

def linkedLeaf : SpelledAbbreviation := .inBytes 4 0x2e false [] (by decide)

/-- A unit whose root has a child with a child of its own and one without. Both parents state where
their next siblings begin, the root at the end of the unit. -/
def linkedUnit : LoneUnit where
  abbreviations := [linkedParent, linkedLeaf]
  entries := [3, 19, 3, 17, 4, 0, 4, 0]

/-- An entry that has children and states a distance to its next sibling. -/
def LoneUnit.linkedEntry (x : LoneUnit) (h : linkedParent ∈ x.abbreviations) (distance : UInt8) :
    EncodedEntry x.unit :=
  x.entry linkedParent h [({ name := 0x01, form := .ref1 }, [distance])] rfl
    (List.forall_mem_singleton.2 (.direct Form.noConfusion (.fixed [distance])))

def linkedEntry (distance : UInt8) : EncodedEntry linkedUnit.unit :=
  linkedUnit.linkedEntry (.head _) distance

theorem linksTo_linkedEntry (distance : UInt8) :
    (linkedEntry distance).LinksTo distance.toNat := by
  intro a ha
  obtain rfl : ({ name := 0x01, form := .ref1 }, [distance]) = a := Option.some.inj ha
  have hbytes : ByteOrder.little.encode 1 distance.toUInt64.toNat = [distance] := by
    simp [ByteOrder.encode, ByteOrder.toLittle]
  have hfits : distance.toUInt64.toNat < 1 <<< (8 * 1) := distance.toNat_lt
  have hwrites : Form.ref1.WritesDistance .little distance.toUInt64 [distance] :=
    hbytes ▸ .fixed rfl hfits
  refine ⟨distance.toUInt64, Nat.zero_add _, ?_, .direct Form.noConfusion hwrites⟩
  exact Nat.lt_trans distance.toNat_lt (by decide)

def leafEntry : EncodedEntry linkedUnit.unit :=
  linkedUnit.entry linkedLeaf (.tail _ (.head _)) [] rfl (List.forall_mem_nil _)

/-- The child of the root that has a child. -/
def linkedChild : EntryTree linkedUnit.unit :=
  .parent (linkedEntry 17) rfl [.leaf leafEntry rfl] zeroByte

def linkedTree : EntryTree linkedUnit.unit :=
  .parent (linkedEntry 19) rfl [linkedChild, .leaf leafEntry rfl] zeroByte

theorem siblingsTrue_linkedTree : linkedTree.SiblingsTrue 11 :=
  have hleaf (stop : Nat) : leafEntry.LinksTo stop := fun _ h => nomatch h
  ⟨linksTo_linkedEntry 19, ⟨linksTo_linkedEntry 17, hleaf 16, trivial⟩, hleaf 18, trivial⟩

theorem holds_linkedTree : linkedUnit.unit.window.Holds 11 linkedTree.bytes :=
  have hentries : linkedUnit.entries = [] ++ (linkedTree.bytes ++ []) := rfl
  linkedUnit.holds_entries hentries

theorem leads_of_mem_subtrees_linkedTree :
    let u := linkedUnit.unit
    let e := u.readAt .fast 1 ((linkedEntry 17).entryAt 13)
    (∃ d, DebugInfo.ofSections linkedUnit.sections .little = .ok d ∧ d.units[0]? = some u) ∧
      u.window.Holds 11 linkedTree.bytes ∧ linkedTree.SiblingsTrue 11 ∧
      (u.siblingOffset e).answer {} = .ok 17 ∧
      (u.next e .fast).answer {} = .ok (u.readAt .fast 1 (leafEntry.entryAt 17)) ∧
      (u.children e .fast).answer {} = .ok [u.readAt .fast 2 (leafEntry.entryAt 15)] ∧
      (u.unlink.siblingOffset e.unlink).answer {} = .ok 17 := by
  intro u e
  have hmem : ⟨13, linkedChild, some (leafEntry.entryAt 17)⟩ ∈ linkedTree.subtrees 11 none :=
    List.mem_cons_of_mem _ (List.mem_append_left _ List.mem_cons_self)
  obtain ⟨hlinked, hunlinked⟩ := leads_of_mem_subtrees u linkedTree holds_linkedTree
    siblingsTrue_linkedTree _ hmem .fast 1
  exact ⟨linkedUnit.exists_ofSections, holds_linkedTree, siblingsTrue_linkedTree,
    hlinked.siblingOffset {}, hlinked.next .fast {}, hlinked.children .fast {},
    hunlinked.siblingOffset {}⟩

end StackSurvey.Dwarf
