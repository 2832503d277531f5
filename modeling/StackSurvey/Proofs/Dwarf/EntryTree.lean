import StackSurvey.Proofs.Dwarf.LoneUnit
import StackSurvey.Proofs.Dwarf.Traversal
import StackSurvey.Proofs.Dwarf.ValueBytes

namespace StackSurvey.Dwarf

open Decoder

variable {u : DebugUnit} {resolver : Resolver}

/-- An entry as a unit writes it: its code, and the bytes of its attributes. -/
structure EncodedEntry (u : DebugUnit) where
  abbreviation : Abbreviation
  code : List UInt8
  attributes : List (AttributeSpec × List UInt8)
  isGroup : Leb128.IsGroup code
  code_ne_zero : Leb128.unsigned code ≠ 0
  abbreviation_eq : ∃ table, u.abbreviations = .ok table ∧
    table.get (Leb128.unsigned code) = .ok abbreviation
  specs_eq : abbreviation.specs = attributes.map (·.1)
  encodes : ∀ a ∈ attributes, a.1.form.Encodes u.region u.header.version a.2

/-- The end of a list of siblings. -/
structure ListEnd where
  code : List UInt8
  isGroup : Leb128.IsGroup code
  code_eq_zero : Leb128.unsigned code = 0

/-- The slots of attributes that are written from a position on. -/
def slotsAt : Nat → List (AttributeSpec × List UInt8) → List AttributeSlot
  | _, [] => []
  | pos, (spec, value) :: attributes =>
    { spec, offset := pos } :: slotsAt (pos + value.length) attributes

def ListEnd.entryAt (stop : ListEnd) (u : DebugUnit) (offset : Nat) : Entry :=
  { unit := u.index, offset, nextOffset := offset + stop.code.length, abbreviation := none }

namespace EncodedEntry

def bytes (x : EncodedEntry u) : List UInt8 := x.code ++ x.attributes.flatMap (·.2)

/-- The entry as it is found at an offset. -/
def entryAt (x : EncodedEntry u) (offset : Nat) : Entry :=
  { unit := u.index, offset, nextOffset := offset + x.bytes.length
    abbreviation := some x.abbreviation
    slots := slotsAt (offset + x.code.length) x.attributes }

end EncodedEntry

theorem ofExcept_ok {α : Type} {w : Window} {pos : Nat} (a : α) :
    (ofExcept (.ok a : Except Fault α) : Decoder α) w pos = .ok a pos :=
  rfl

theorem decodeSlots_of_holds {w : Window} {pos version : Nat}
    {attributes : List (AttributeSpec × List UInt8)}
    (hattributes : ∀ a ∈ attributes, a.1.form.Encodes w.region version a.2)
    (h : w.Holds pos (attributes.flatMap (·.2))) :
    Entry.decodeSlots version (attributes.map (·.1)) w pos =
      .ok (slotsAt pos attributes) (pos + (attributes.flatMap (·.2)).length) := by
  induction attributes generalizing pos with
  | nil => rfl
  | cons a attributes ih =>
    obtain ⟨ha, hrest⟩ := List.forall_mem_cons.1 hattributes
    rw [List.flatMap_cons] at h
    obtain ⟨hvalue, hvalues⟩ := Window.holds_append.1 h
    rw [List.map_cons, Entry.decodeSlots, bind_of_eq_ok _ (position_eq w pos),
      bind_of_eq_ok _ (ha.reads_skipValue rfl hvalue), bind_of_eq_ok _ (ih hrest hvalues),
      List.flatMap_cons, List.length_append, ← Nat.add_assoc]
    rfl

/-- The slot of the first attribute that satisfies a predicate is where its value is written. -/
theorem find?_slotsAt (p : AttributeSpec → Bool) {w : Window} {pos : Nat}
    {attributes : List (AttributeSpec × List UInt8)} {a : AttributeSpec × List UInt8}
    (h : attributes.find? (p ·.1) = some a) (hw : w.Holds pos (attributes.flatMap (·.2))) :
    ∃ offset, (slotsAt pos attributes).find? (p ·.spec) = some ⟨a.1, offset⟩ ∧
      w.Holds offset a.2 := by
  induction attributes generalizing pos with
  | nil => cases h
  | cons first rest ih =>
    obtain ⟨hfirst, hrest⟩ := Window.holds_append.1 hw
    rw [slotsAt]
    cases hp : p first.1 with
    | true =>
      rw [List.find?_cons, hp] at h
      cases h
      refine ⟨pos, ?_, hfirst⟩
      rw [List.find?_cons, hp]
    | false =>
      rw [List.find?_cons, hp] at h
      obtain ⟨offset, hslot, hholds⟩ := ih h hrest
      refine ⟨offset, ?_, hholds⟩
      rw [List.find?_cons, hp]
      exact hslot

theorem find?_slotsAt_eq_none (p : AttributeSpec → Bool)
    {attributes : List (AttributeSpec × List UInt8)} (h : attributes.find? (p ·.1) = none)
    (pos : Nat) : (slotsAt pos attributes).find? (p ·.spec) = none := by
  induction attributes generalizing pos with
  | nil => rfl
  | cons first rest ih =>
    rw [List.find?_cons] at h
    rw [slotsAt, List.find?_cons]
    cases hp : p first.1 with
    | true =>
      rw [hp] at h
      cases h
    | false =>
      rw [hp] at h
      exact ih h _

theorem Entry.attr_of_slot? {e : Entry} {name : UInt64} {slot : AttributeSlot}
    (h : e.slot? name = some slot) : e.attr u name = Attribute.ofSpec u slot.spec slot.offset := by
  rw [attr, h]

namespace DebugUnit

/-- What is decoded at an offset where an entry may begin is found there. -/
theorem find_of_decode {offset : Nat} {e : Entry} (next : Nat)
    (hroot : u.header.rootOffset ≤ offset)
    (hdecode : Entry.decode u u.window offset = .ok e next) : u.find offset = .ok e := by
  obtain ⟨_, _, hlt, hlimit⟩ := Entry.decode_bounds hdecode
  have hstop : u.window.limit ≤ u.region.stop := Nat.min_le_left ..
  have hcontains : u.containsOffset offset = true := by
    rw [containsOffset, Bool.and_eq_true, decide_eq_true_eq, decide_eq_true_eq]
    omega
  rw [find, if_pos hcontains, decodeAt, hdecode]

theorem find_entry (x : EncodedEntry u) {offset : Nat} (hroot : u.header.rootOffset ≤ offset)
    (h : u.window.Holds offset x.bytes) : u.find offset = .ok (x.entryAt offset) := by
  obtain ⟨hcode, hvalues⟩ := Window.holds_append.1 h
  obtain ⟨table, htable, habbreviation⟩ := x.abbreviation_eq
  have hslots := decodeSlots_of_holds x.encodes hvalues
  rw [← x.specs_eq] at hslots
  refine find_of_decode (offset + x.bytes.length) hroot ?_
  rw [Entry.decode, bind_of_eq_ok _ (position_eq u.window offset),
    bind_of_eq_ok _ (reads_uleb128 x.isGroup rfl hcode), if_neg x.code_ne_zero, htable,
    bind_of_eq_ok _ (ofExcept_ok table), habbreviation,
    bind_of_eq_ok _ (ofExcept_ok x.abbreviation), bind_of_eq_ok _ hslots]
  rw [EncodedEntry.entryAt, EncodedEntry.bytes, List.length_append, Nat.add_assoc]
  rfl

theorem find_listEnd (stop : ListEnd) {offset : Nat} (hroot : u.header.rootOffset ≤ offset)
    (h : u.window.Holds offset stop.code) : u.find offset = .ok (stop.entryAt u offset) := by
  refine find_of_decode (offset + stop.code.length) hroot ?_
  rw [Entry.decode, bind_of_eq_ok _ (position_eq u.window offset),
    bind_of_eq_ok _ (reads_uleb128 stop.isGroup rfl h), if_pos stop.code_eq_zero]
  rfl

end DebugUnit

/-- A tree of entries. An entry that has children is followed by them and by the end of their
list. -/
inductive EntryTree (u : DebugUnit) where
  | leaf (entry : EncodedEntry u) (h : entry.abbreviation.hasChildren = false)
  | parent (entry : EncodedEntry u) (h : entry.abbreviation.hasChildren = true)
      (children : List (EntryTree u)) (stop : ListEnd)

/-- An entry of a tree with the offset and the depth that it has there. -/
structure PlacedEntry (u : DebugUnit) where
  offset : Nat
  depth : Nat
  entry : EncodedEntry u

namespace EntryTree

mutual

def bytes : EntryTree u → List UInt8
  | leaf entry _ => entry.bytes
  | parent entry _ children stop => entry.bytes ++ (bytesOfList children ++ stop.code)

def bytesOfList : List (EntryTree u) → List UInt8
  | [] => []
  | t :: ts => t.bytes ++ bytesOfList ts

end

mutual

/-- The entries of a tree that begins at an offset, parents before their children. -/
def preorder (offset depth : Nat) : EntryTree u → List (PlacedEntry u)
  | leaf entry _ => [{ offset, depth, entry }]
  | parent entry _ children _ =>
    { offset, depth, entry } :: preorderOfList (offset + entry.bytes.length) (depth + 1) children

def preorderOfList (offset depth : Nat) : List (EntryTree u) → List (PlacedEntry u)
  | [] => []
  | t :: ts => t.preorder offset depth ++ preorderOfList (offset + t.bytes.length) depth ts

end

end EntryTree

def PlacedEntry.listed (x : PlacedEntry u) (resolver : Resolver) : Entry :=
  u.listed resolver x.depth (x.entry.entryAt x.offset)

namespace DebugUnit

theorem walk_entry_of_leaf (x : EncodedEntry u) (hx : x.abbreviation.hasChildren = false)
    {offset depth : Nat} (hroot : u.header.rootOffset ≤ offset)
    (h : u.window.Holds offset x.bytes) :
    u.walk resolver offset depth =
      u.listed resolver depth (x.entryAt offset) ::
        if depth = 0 then [] else u.walk resolver (offset + x.bytes.length) depth := by
  have hterminator : ¬ (x.entryAt offset).isTerminator = true := Bool.false_ne_true
  have hchildren : ¬ (x.entryAt offset).hasChildren = true := Bool.eq_false_iff.1 hx
  rw [walk_of_find (find_entry x hroot h), if_neg hterminator, if_neg hchildren]
  split <;> rfl

theorem walk_entry_of_parent (x : EncodedEntry u) (hx : x.abbreviation.hasChildren = true)
    {offset depth : Nat} (hroot : u.header.rootOffset ≤ offset)
    (h : u.window.Holds offset x.bytes) :
    u.walk resolver offset depth =
      u.listed resolver depth (x.entryAt offset) ::
        u.walk resolver (offset + x.bytes.length) (depth + 1) := by
  have hterminator : ¬ (x.entryAt offset).isTerminator = true := Bool.false_ne_true
  have hchildren : (x.entryAt offset).hasChildren = true := hx
  rw [walk_of_find (find_entry x hroot h), if_neg hterminator, if_pos hchildren]
  rfl

theorem walk_listEnd (stop : ListEnd) {offset depth : Nat} (hroot : u.header.rootOffset ≤ offset)
    (h : u.window.Holds offset stop.code) :
    u.walk resolver offset (depth + 1) =
      if depth = 0 then [] else u.walk resolver (offset + stop.code.length) depth := by
  have hterminator : (stop.entryAt u offset).isTerminator = true := rfl
  rw [walk_of_find (find_listEnd stop hroot h), if_pos hterminator]
  cases depth <;> rfl

mutual

/-- A walk lists a tree, and goes on behind it if a list is open. -/
theorem walk_tree (t : EntryTree u) {offset : Nat} (depth : Nat)
    (hroot : u.header.rootOffset ≤ offset) (h : u.window.Holds offset t.bytes) :
    u.walk resolver offset depth =
      (t.preorder offset depth).map (·.listed resolver) ++
        if depth = 0 then [] else u.walk resolver (offset + t.bytes.length) depth := by
  cases t with
  | leaf entry hleaf =>
    rw [walk_entry_of_leaf entry hleaf hroot h]
    rfl
  | parent entry hparent children stop =>
    obtain ⟨hentry, hrest⟩ := Window.holds_append.1 h
    obtain ⟨hchildren, hstop⟩ := Window.holds_append.1 hrest
    have hroot' : u.header.rootOffset ≤ offset + entry.bytes.length := Nat.le_add_right_of_le hroot
    -- The children are walked one deeper; the end of their list leads back to this depth.
    rw [walk_entry_of_parent entry hparent hroot hentry, walk_trees children depth hroot' hchildren,
      walk_listEnd stop (Nat.le_add_right_of_le hroot') hstop]
    rw [EntryTree.bytes, List.length_append, List.length_append, ← Nat.add_assoc, ← Nat.add_assoc]
    rfl

theorem walk_trees (ts : List (EntryTree u)) {offset : Nat} (depth : Nat)
    (hroot : u.header.rootOffset ≤ offset)
    (h : u.window.Holds offset (EntryTree.bytesOfList ts)) :
    u.walk resolver offset (depth + 1) =
      (EntryTree.preorderOfList offset (depth + 1) ts).map (·.listed resolver) ++
        u.walk resolver (offset + (EntryTree.bytesOfList ts).length) (depth + 1) := by
  cases ts with
  | nil => rfl
  | cons t ts =>
    obtain ⟨ht, hts⟩ := Window.holds_append.1 h
    rw [walk_tree t (depth + 1) hroot ht, if_neg (Nat.succ_ne_zero depth),
      walk_trees ts depth (Nat.le_add_right_of_le hroot) hts, EntryTree.preorderOfList,
      List.map_append, List.append_assoc, EntryTree.bytesOfList, List.length_append, Nat.add_assoc]

end

end DebugUnit

/-- Where an entry is and what it is. -/
structure Placement where
  offset : Nat
  nextOffset : Nat
  abbreviation : Option Abbreviation
  depth : Nat
deriving DecidableEq

def Entry.placement (e : Entry) : Placement :=
  ⟨e.offset, e.nextOffset, e.abbreviation, e.depth⟩

def PlacedEntry.placement (x : PlacedEntry u) : Placement :=
  ⟨x.offset, x.offset + x.entry.bytes.length, some x.entry.abbreviation, x.depth⟩

theorem Entry.placement_listed (e : Entry) (depth : Nat) :
    (u.listed resolver depth e).placement = { e.placement with depth } := by
  rw [placement, DebugUnit.listed]
  simp only [offset_resolve, nextOffset_resolve, abbreviation_resolve]
  rfl

/-- A unit whose entries begin with a tree lists the tree, each entry where it is written and at its
depth. What follows the tree is not read. -/
theorem map_placement_entries (u : DebugUnit) (t : EntryTree u)
    (h : u.window.Holds u.header.rootOffset t.bytes) (p : Progress) :
    ∃ entries q, u.entries p = .ok entries q ∧
      entries.map (·.placement) = (t.preorder u.header.rootOffset 0).map (·.placement) := by
  obtain ⟨q, hq⟩ := u.entries_eq p
  refine ⟨u.entryList, q, hq, ?_⟩
  rw [DebugUnit.entryList, DebugUnit.walk_tree t 0 (Nat.le_refl _) h, if_pos rfl, List.append_nil,
    List.map_map]
  exact List.map_congr_left fun x _ => Entry.placement_listed (x.entry.entryAt x.offset) x.depth

/-- An entry of a lone unit, by its abbreviation and the bytes of its values. -/
def LoneUnit.entry (x : LoneUnit) (a : SpelledAbbreviation) (ha : a ∈ x.abbreviations)
    (attributes : List (AttributeSpec × List UInt8))
    (hspecs : a.abbreviation.specs = attributes.map (·.1))
    (hencodes : ∀ v ∈ attributes, v.1.form.Encodes x.unit.region x.unit.header.version v.2) :
    EncodedEntry x.unit where
  abbreviation := a.abbreviation
  code := a.code
  attributes := attributes
  isGroup := a.isGroup_code
  code_ne_zero := a.code_ne_zero
  abbreviation_eq := ⟨x.table, rfl, x.get_of_mem ha⟩
  specs_eq := hspecs
  encodes := hencodes

/-- The abbreviation of entries that have a name and children. -/
def namedParent : SpelledAbbreviation :=
  .inBytes 1 0x11 true [(0x03, .string)] (by decide)

/-- The abbreviation of entries that have neither. -/
def bareLeaf : SpelledAbbreviation := .inBytes 2 0x2e false [] (by decide)

/-- A unit whose root has a child without children and one with an empty list of children. Bytes
that begin no entry follow. -/
def nestedUnit : LoneUnit where
  abbreviations := [namedParent, bareLeaf]
  entries := [1, 0x61, 0, 2, 1, 0, 0, 0, 0xff, 0xff]

def namedEntry (name : List UInt8) (h : 0 ∉ name) : EncodedEntry nestedUnit.unit :=
  nestedUnit.entry namedParent (.head _) [({ name := 0x03, form := .string }, name ++ [0])] rfl
    (List.forall_mem_singleton.2 (.direct Form.noConfusion (.terminated h)))

def bareEntry : EncodedEntry nestedUnit.unit :=
  nestedUnit.entry bareLeaf (.tail _ (.head _)) [] rfl (List.forall_mem_nil _)

def zeroByte : ListEnd := ⟨[0], .last rfl, rfl⟩

def nestedTree : EntryTree nestedUnit.unit :=
  .parent (namedEntry [0x61] (by decide)) rfl
    [.leaf bareEntry rfl, .parent (namedEntry [] (by decide)) rfl [] zeroByte] zeroByte

theorem map_placement_entries_nestedUnit :
    let u := nestedUnit.unit
    (∃ d, DebugInfo.ofSections nestedUnit.sections .little = .ok d ∧ d.units[0]? = some u) ∧
      u.window.Holds 11 nestedTree.bytes ∧
      ∃ entries q, u.entries {} = .ok entries q ∧
        entries.map (·.placement) =
          [⟨11, 14, some namedParent.abbreviation, 0⟩, ⟨14, 15, some bareLeaf.abbreviation, 1⟩,
            ⟨15, 17, some namedParent.abbreviation, 1⟩] :=
  have hentries : nestedUnit.entries = [] ++ (nestedTree.bytes ++ [0xff, 0xff]) := rfl
  have h : nestedUnit.unit.window.Holds 11 nestedTree.bytes := nestedUnit.holds_entries hentries
  ⟨nestedUnit.exists_ofSections, h, map_placement_entries nestedUnit.unit nestedTree h {}⟩

end StackSurvey.Dwarf
