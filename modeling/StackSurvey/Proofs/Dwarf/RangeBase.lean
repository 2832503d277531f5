import StackSurvey.Proofs.Dwarf.DelimitedUnits
import StackSurvey.Proofs.Dwarf.EntryRange
import StackSurvey.Proofs.Dwarf.AbbreviationTable
import StackSurvey.Proofs.Dwarf.References
import StackSurvey.Proofs.Dwarf.RangeListBytes

namespace StackSurvey.Dwarf

namespace Entry

variable {u : DebugUnit} {e : Entry} {list : UInt64}

/-- An entry names a range list by an offset that can be read. -/
structure NamesRanges (u : DebugUnit) (e : Entry) (list : UInt64) : Prop where
  exists_attr : ∃ a, e.attr u KnownAttribute.ranges.code = .ok a ∧ a.form ≠ .rnglistx ∧
    a.sectionOffset u = .ok list

/-- An entry is the root of its unit and states a low address that cannot be read as one. -/
def Misbased (u : DebugUnit) (e : Entry) : Prop :=
  e.offset = u.header.rootOffset ∧
    ∃ low fault, e.attr u KnownAttribute.lowPc.code = .ok low ∧ low.address u = .error fault

/-- The least first and the greatest second address of ranges. -/
structure Spans (ranges : List (UInt64 × UInt64)) (low high : UInt64) : Prop where
  low_mem : ∃ r ∈ ranges, r.1 = low
  high_mem : ∃ r ∈ ranges, r.2 = high
  bounds : ∀ r ∈ ranges, low ≤ r.1 ∧ r.2 ≤ high

/-- An entry has these ranges, and the addresses that they span if there are any. -/
structure HasRanges (e : Entry) (ranges : List (UInt64 × UInt64)) : Prop where
  ranges_eq : e.ranges = ranges
  pcRange_eq_none : ranges = [] → e.pcRange = none
  exists_pcRange : ranges ≠ [] → ∃ low high, e.pcRange = some (low, high) ∧ Spans ranges low high

theorem min_eq_or (a b : UInt64) : min a b = a ∨ min a b = b := by
  change (if a ≤ b then a else b) = a ∨ (if a ≤ b then a else b) = b
  split
  · exact .inl rfl
  · exact .inr rfl

theorem max_eq_or (a b : UInt64) : max a b = a ∨ max a b = b := by
  change (if a ≤ b then b else a) = a ∨ (if a ≤ b then b else a) = b
  split
  · exact .inr rfl
  · exact .inl rfl

/-- The bounds of the hull of ranges are bounds of some of them. -/
theorem hull?_mem {ranges : List (UInt64 × UInt64)} {low high : UInt64}
    (h : hull? ranges = some (low, high)) :
    (∃ r ∈ ranges, r.1 = low) ∧ ∃ r ∈ ranges, r.2 = high := by
  cases ranges with
  | nil => cases h
  | cons first rest =>
    induction rest generalizing first with
    | nil =>
      cases h
      exact ⟨⟨_, List.mem_singleton_self _, rfl⟩, _, List.mem_singleton_self _, rfl⟩
    | cons next rest ih =>
      -- The first two ranges count as one that reaches over both.
      obtain ⟨⟨l, hl, hlow⟩, r, hr, hhigh⟩ := ih (min first.1 next.1, max first.2 next.2) h
      constructor
      · rcases List.mem_cons.1 hl with rfl | hl
        · rcases min_eq_or first.1 next.1 with heq | heq
          · exact ⟨first, by simp, heq ▸ hlow⟩
          · exact ⟨next, by simp, heq ▸ hlow⟩
        · exact ⟨l, by simp [hl], hlow⟩
      · rcases List.mem_cons.1 hr with rfl | hr
        · rcases max_eq_or first.2 next.2 with heq | heq
          · exact ⟨first, by simp, heq ▸ hhigh⟩
          · exact ⟨next, by simp, heq ▸ hhigh⟩
        · exact ⟨r, by simp [hr], hhigh⟩

theorem hasRanges_withRanges (h : e.ranges = [] ∧ e.pcRange = none)
    (ranges : List (UInt64 × UInt64)) : (e.withRanges ranges).HasRanges ranges := by
  unfold withRanges
  cases hhull : hull? ranges with
  | none =>
    obtain rfl := hull?_eq_none.1 hhull
    exact ⟨h.1, fun _ => h.2, fun hne => absurd rfl hne⟩
  | some pcRange =>
    obtain ⟨hlow, hhigh⟩ := hull?_mem hhull
    refine ⟨rfl, ?_, fun _ => ⟨pcRange.1, pcRange.2, rfl, hlow, hhigh, hull?_bounds hhull⟩⟩
    rintro rfl
    cases hhull

theorem baseAddress_of_root (hroot : u.find u.header.rootOffset = .ok e) :
    u.baseAddress = (e.value u .lowPc Attribute.address).toOption.getD 0 := by
  have hvalue : (u.find u.header.rootOffset >>= fun root =>
      root.value u .lowPc Attribute.address) = e.value u .lowPc Attribute.address := by
    rw [hroot]
    rfl
  rw [DebugUnit.baseAddress, hvalue]
  cases e.value u .lowPc Attribute.address <;> rfl

theorem Misbased.baseAddress_eq (h : e.Misbased u) (hfind : u.find e.offset = .ok e) :
    u.baseAddress = 0 := by
  obtain ⟨hroot, low, fault, hlow, haddress⟩ := h
  rw [hroot] at hfind
  rw [baseAddress_of_root hfind, value, hlow]
  dsimp only [bind, Except.bind]
  rw [haddress]
  rfl

theorem NamesRanges.hasKnown_ranges (h : e.NamesRanges u list) : e.hasKnown .ranges = true := by
  obtain ⟨a, ha, -⟩ := h.exists_attr
  unfold attr at ha
  unfold hasKnown has
  cases hslot : e.slot? KnownAttribute.ranges.code with
  | none =>
    rw [hslot] at ha
    cases ha
  | some slot => rfl

/-- The root lists its ranges under its own low address, or under zero if it has none. -/
theorem NamesRanges.pcSource_eq (h : e.NamesRanges u list) (hversion : u.header.version < 5) :
    e.pcSource u =
      (if e.offset = u.header.rootOffset then
        match e.attr u KnownAttribute.lowPc.code with
        | .ok low => (low.address u).toOption.map fun base => .list list (some base)
        | .error _ => some (.list list (some 0))
      else some (.list list none)).getD .none := by
  obtain ⟨a, ha, hform, hoffset⟩ := h.exists_attr
  rw [pcSource, if_pos h.hasKnown_ranges, listSource, ha]
  dsimp only [Except.toOption, bind, Option.bind]
  rw [guard, if_pos ⟨hversion, hform⟩, hoffset]
  dsimp only [pure]
  by_cases hroot : e.offset = u.header.rootOffset
  · rw [if_pos hroot, if_pos hroot]
    cases e.attr u KnownAttribute.lowPc.code with
    | error => rfl
    | ok low =>
      dsimp only
      cases low.address u <;> rfl
  · rw [if_neg hroot, if_neg hroot]

/-- An entry that names a range list states its addresses there, under the base of the unit. -/
theorem NamesRanges.exists_pcSource {offset : Nat} (h : e.NamesRanges u list)
    (hfind : u.find offset = .ok e) (hversion : u.header.version < 5) (hbased : ¬ e.Misbased u) :
    ∃ base, e.pcSource u = .list list base ∧ base.getD u.baseAddress = u.baseAddress := by
  rw [h.pcSource_eq hversion]
  by_cases hroot : e.offset = u.header.rootOffset
  · rw [if_pos hroot]
    have hfind : u.find u.header.rootOffset = .ok e := by
      rw [← hroot, (DebugUnit.find_bounds hfind).1]
      exact hfind
    rw [baseAddress_of_root hfind, value]
    cases hlow : e.attr u KnownAttribute.lowPc.code with
    | error fault => exact ⟨some 0, rfl, rfl⟩
    | ok low =>
      cases haddress : low.address u with
      | error fault => exact absurd ⟨hroot, low, fault, hlow, haddress⟩ hbased
      | ok base =>
        dsimp only [bind, Except.bind]
        rw [haddress]
        exact ⟨some base, rfl, rfl⟩
  · rw [if_neg hroot]
    exact ⟨none, rfl, rfl⟩

theorem NamesRanges.pcSource_of_misbased (h : e.NamesRanges u list)
    (hversion : u.header.version < 5) (hbased : e.Misbased u) : e.pcSource u = .none := by
  obtain ⟨hroot, low, fault, hlow, haddress⟩ := hbased
  rw [h.pcSource_eq hversion, if_pos hroot, hlow]
  dsimp only
  rw [haddress]
  rfl

/-- The name and the declaration of an entry do not touch its addresses. -/
theorem exists_resolve (u : DebugUnit) (resolver : Resolver) (e : Entry)
    (h : e.ranges = [] ∧ e.pcRange = none) :
    ∃ declared : Entry, (declared.ranges = [] ∧ declared.pcRange = none) ∧
      e.resolve u resolver = declared.withPc u resolver (e.pcSource u) := by
  rw [resolve]
  refine ⟨_, ?_, rfl⟩
  unfold withDeclaration
  repeat' split
  all_goals exact h

theorem attr_resolve (resolver : Resolver) (name : UInt64) :
    (e.resolve u resolver).attr u name = e.attr u name :=
  attr_readAs resolver .full e name

theorem misbased_resolve (resolver : Resolver) :
    (e.resolve u resolver).Misbased u ↔ e.Misbased u := by
  rw [Misbased, offset_resolve, attr_resolve]
  rfl

theorem namesRanges_resolve (resolver : Resolver) :
    (e.resolve u resolver).NamesRanges u list ↔ e.NamesRanges u list := by
  constructor
  · rintro ⟨a, ha, hrest⟩
    exact ⟨a, attr_resolve resolver _ ▸ ha, hrest⟩
  · rintro ⟨a, ha, hrest⟩
    exact ⟨a, (attr_resolve resolver _).trans ha, hrest⟩

/-- Read in full, an entry has the ranges of the list that it names under the base of its unit, and
none if that cannot be read. Only a root that states its low address as something else never has
any. -/
theorem hasRanges_of_read {offset : Nat} {p q : Progress}
    (hread : u.read u.resolver .full offset p = .ok e q) (hversion : u.header.version < 5)
    (h : e.NamesRanges u list) :
    (¬ e.Misbased u → e.HasRanges ((u.rangeList list u.baseAddress).toOption.getD [])) ∧
      (e.Misbased u → e.HasRanges []) := by
  obtain ⟨found, hfind, rfl⟩ := DebugUnit.find_of_read_full hread
  have hnames : found.NamesRanges u list := (namesRanges_resolve _).1 h
  obtain ⟨declared, hnone, hresolve⟩ :=
    exists_resolve u u.resolver found (unresolved_of_find hfind)
  rw [misbased_resolve, hresolve]
  constructor
  · intro hbased
    obtain ⟨base, hsource, hbase⟩ := hnames.exists_pcSource hfind hversion hbased
    have hbase : base.getD u.resolver.base.get = u.baseAddress := hbase
    rw [hsource, withPc, hbase]
    cases u.rangeList list u.baseAddress with
    | ok ranges => exact hasRanges_withRanges hnone ranges
    | error fault => exact hasRanges_withRanges hnone []
  · intro hbased
    rw [hnames.pcSource_of_misbased hversion hbased]
    exact hasRanges_withRanges hnone []

end Entry

namespace DebugInfo

open Decoder

/-- The abbreviation of roots with a low address that is a constant, and a range list. -/
def constantLow : SpelledAbbreviation :=
  .inBytes 11 0x3c true [(0x11, .data4), (0x55, .secOffset)] (by decide)

def constantLowRanges : ByteArray :=
  ⟨#[0x10, 0, 0, 0, 0x20, 0, 0, 0, 0, 0, 0, 0, 0, 0, 0, 0]⟩

/-- A unit whose root and its child name the same range list. -/
def constantLowContents : LoneUnit where
  addressSize := 4
  abbreviations := [constantLow, RangeList.listedLeaf]
  entries := [11, 0, 0x10, 0, 0, 0, 0, 0, 0, 12, 0, 0, 0, 0, 0]
  others := { ranges := some constantLowRanges }

def constantLowSections : DebugSections := constantLowContents.sections

def constantLowUnit : DebugUnit := constantLowContents.unit

def constantLowEntry : EncodedEntry constantLowUnit :=
  constantLowContents.entry constantLow (.head _)
    [({ name := 0x11, form := .data4 }, [0, 0x10, 0, 0]),
      ({ name := 0x55, form := .secOffset }, [0, 0, 0, 0])]
    rfl
    (List.forall_mem_cons.2
      ⟨.direct Form.noConfusion (.fixed [0, 0x10, 0, 0]),
        List.forall_mem_singleton.2 (.direct Form.noConfusion (.offset rfl))⟩)

def listedEntry : EncodedEntry constantLowUnit :=
  constantLowContents.entry RangeList.listedLeaf (.tail _ (.head _))
    [({ name := 0x55, form := .secOffset }, [0, 0, 0, 0])] rfl
    (List.forall_mem_singleton.2 (.direct Form.noConfusion (.offset rfl)))

theorem find_constantLowEntry :
    constantLowUnit.find 11 = .ok (constantLowEntry.entryAt 11) :=
  DebugUnit.find_entry constantLowEntry (Nat.le_refl 11) ⟨by decide, rfl⟩

theorem find_listedEntry : constantLowUnit.find 20 = .ok (listedEntry.entryAt 20) :=
  DebugUnit.find_entry listedEntry (by decide) ⟨by decide, rfl⟩

theorem namesRanges_constantLowEntry :
    (constantLowEntry.entryAt 11).NamesRanges constantLowUnit 0 :=
  ⟨_, Attribute.ofSpec_of_ne Form.noConfusion 16, Form.noConfusion, rfl⟩

theorem misbased_constantLowEntry : (constantLowEntry.entryAt 11).Misbased constantLowUnit :=
  ⟨rfl, _, _, Attribute.ofSpec_of_ne Form.noConfusion 12, rfl⟩

theorem namesRanges_listedEntry : (listedEntry.entryAt 20).NamesRanges constantLowUnit 0 :=
  ⟨_, Attribute.ofSpec_of_ne Form.noConfusion 21, Form.noConfusion, rfl⟩

theorem rangeList_constantLowUnit :
    constantLowUnit.rangeList 0 constantLowUnit.baseAddress = .ok [(0x10, 0x20)] := by
  let items : List (RangeList.Item 4) := [.range 0x10 0x20 (by decide) (by decide) (by decide)]
  have hbytes : constantLowRanges.data.toList =
      [] ++ (items.flatMap (RangeList.Item.bytes .little) ++ RangeList.stop 4 .little) := rfl
  have hoffset : (0 : UInt64).toNat = ([] : List UInt8).length := rfl
  have hranges : RangeList.ranges 0 items = [(0x10, 0x20)] := by decide
  rw [misbased_constantLowEntry.baseAddress_eq find_constantLowEntry, ← hranges]
  exact DebugUnit.rangeList_of_holds (u := constantLowUnit) rfl rfl 0
    (DebugUnit.endsWith_ranges hoffset hbytes).holds

theorem exists_read_constantLowEntry :
    ∃ q, constantLowUnit.read constantLowUnit.resolver .full 11 {} =
      .ok ((constantLowEntry.entryAt 11).resolve constantLowUnit constantLowUnit.resolver) q :=
  DebugUnit.read_of_find find_constantLowEntry .full {}

theorem exists_read_listedEntry (p : Progress) :
    ∃ q, constantLowUnit.read constantLowUnit.resolver .full 20 p =
      .ok ((listedEntry.entryAt 20).resolve constantLowUnit constantLowUnit.resolver) q :=
  DebugUnit.read_of_find find_listedEntry .full p

/-- The child has the range of the list, and the root has none. -/
theorem hasRanges_of_read_constantLowUnit :
    ∃ d root child p q, ofSections constantLowSections .little = .ok d ∧
      d.units[0]? = some constantLowUnit ∧
      constantLowUnit.read constantLowUnit.resolver .full 11 {} = .ok root p ∧
      root.NamesRanges constantLowUnit 0 ∧ root.HasRanges [] ∧
      constantLowUnit.read constantLowUnit.resolver .full 20 p = .ok child q ∧
      child.NamesRanges constantLowUnit 0 ∧ child.HasRanges [(0x10, 0x20)] := by
  obtain ⟨p, hroot⟩ := exists_read_constantLowEntry
  obtain ⟨q, hchild⟩ := exists_read_listedEntry p
  have hnamesRoot := (Entry.namesRanges_resolve constantLowUnit.resolver).2
    namesRanges_constantLowEntry
  have hnamesChild := (Entry.namesRanges_resolve constantLowUnit.resolver).2
    namesRanges_listedEntry
  refine ⟨_, _, _, p, q, constantLowContents.ofSections_sections, rfl, hroot, hnamesRoot, ?_,
    hchild, hnamesChild, ?_⟩
  · exact (Entry.hasRanges_of_read hroot (by decide) hnamesRoot).2
      ((Entry.misbased_resolve _).2 misbased_constantLowEntry)
  · have hranges := (Entry.hasRanges_of_read hchild (by decide) hnamesChild).1 ?_
    · rw [rangeList_constantLowUnit] at hranges
      exact hranges
    · rw [Entry.misbased_resolve]
      exact fun h => absurd h.1 (by decide)

/-- The list that the root names can be read under the base of the unit, and the root still has no
ranges. -/
theorem ranges_constantLowEntry :
    ∃ d root p, ofSections constantLowSections .little = .ok d ∧
      d.units[0]? = some constantLowUnit ∧
      constantLowUnit.read constantLowUnit.resolver .full 11 {} = .ok root p ∧
      root.NamesRanges constantLowUnit 0 ∧
      constantLowUnit.rangeList 0 constantLowUnit.baseAddress = .ok [(0x10, 0x20)] ∧
      root.ranges = [] ∧ root.pcRange = none := by
  obtain ⟨p, hroot⟩ := exists_read_constantLowEntry
  obtain ⟨declared, hnone, hresolve⟩ := Entry.exists_resolve constantLowUnit
    constantLowUnit.resolver _ (Entry.unresolved_of_find find_constantLowEntry)
  rw [namesRanges_constantLowEntry.pcSource_of_misbased (by decide) misbased_constantLowEntry,
    Entry.withPc] at hresolve
  refine ⟨_, _, p, constantLowContents.ofSections_sections, rfl, hroot,
    (Entry.namesRanges_resolve _).2 namesRanges_constantLowEntry, rangeList_constantLowUnit, ?_⟩
  rw [hresolve]
  exact hnone

end DebugInfo

end StackSurvey.Dwarf
