import StackSurvey.Proofs.Dwarf.RangeBase
import StackSurvey.Proofs.Dwarf.UnitLocality

namespace StackSurvey.Dwarf

/-- The addresses of an entry while they are set. -/
structure AddressFields where
  low : Option UInt64 := none
  high : Option UInt64 := none
  ranges : List (UInt64 × UInt64) := []

/-- A computation that sets fields. Those that it has set remain when it fails. -/
abbrev Setting (α : Type) : Type := EStateM Fault AddressFields α

namespace Setting

/-- The fields that a computation leaves set, whether it fails or not. -/
def fields {α : Type} (s : Setting α) : AddressFields :=
  match s {} with
  | .ok _ left => left
  | .error _ left => left

def setBounds (low high : UInt64) : Setting Unit := do
  modify fun left => { left with low := some low }
  modify fun left => { left with high := some high }

/-- Sets the least first and the greatest second address of ranges, if there are any. -/
def setRanges (ranges : List (UInt64 × UInt64)) : Setting Unit := do
  let low := (ranges.map (·.1)).min?
  let high := (ranges.map (·.2)).max?
  match low, high with
  | some low, some high =>
    setBounds low high
    modify fun left => { left with ranges }
  | _, _ => return

end Setting

namespace Entry

open Setting

variable {u : DebugUnit} {resolver : Resolver} {e declared : Entry}

/-- The base of an entry's range list. The root has its own low address, or zero. -/
def listBase (u : DebugUnit) (resolver : Resolver) (e : Entry) : Except Fault UInt64 :=
  if e.offset = u.header.rootOffset then
    match e.attr u KnownAttribute.lowPc.code with
    | .ok low => low.address u
    | .error _ => return 0
  else
    return resolver.base.get

/-- Sets the fields from the range list of an entry. -/
def setFromList (u : DebugUnit) (resolver : Resolver) (e : Entry) : Setting Unit := do
  let a ← ofExcept (e.attr u KnownAttribute.ranges.code)
  if 5 ≤ u.header.version ∨ a.form = .rnglistx then
    return
  let offset ← ofExcept (a.sectionOffset u)
  let base ← ofExcept (e.listBase u resolver)
  setRanges (← ofExcept (u.rangeList offset base))

/-- Sets the fields from the low and the high address of an entry. -/
def setFromBounds (u : DebugUnit) (e : Entry) : Setting Unit := do
  let low ← ofExcept (e.value u .lowPc Attribute.address)
  let high ← ofExcept (e.highAddress u low)
  setBounds low high

/-- Sets the fields from the address of a variable; zero stands for none. -/
def setFromLocation (u : DebugUnit) (e : Entry) : Setting Unit := do
  match ← ofExcept (e.locationAddress u) with
  | some address => if address ≠ 0 then setBounds address (address + 1)
  | none => return

def setAddresses (u : DebugUnit) (resolver : Resolver) (e : Entry) : Setting Unit :=
  if e.hasKnown .ranges then e.setFromList u resolver
  else if e.hasKnown .lowPc then e.setFromBounds u
  else if e.hasKnown .location then e.setFromLocation u
  else return

/-- The address fields of an entry that is resolved. -/
def addressFields (e : Entry) : AddressFields where
  low := e.pcRange.map (·.1)
  high := e.pcRange.map (·.2)
  ranges := e.ranges

/-- The hull of ranges has the least of their first addresses and the greatest of their second
ones. -/
theorem hull?_cons (first : UInt64 × UInt64) (rest : List (UInt64 × UInt64)) :
    hull? (first :: rest) =
      some ((rest.map (·.1)).foldl min first.1, (rest.map (·.2)).foldl max first.2) := by
  refine congrArg some ?_
  induction rest generalizing first with
  | nil => rfl
  | cons next rest ih => exact ih (min first.1 next.1, max first.2 next.2)

section

variable (h : declared.ranges = [] ∧ declared.pcRange = none)

include h

theorem addressFields_of_none : declared.addressFields = {} := by
  rw [addressFields, h.1, h.2]
  rfl

theorem fields_setBounds (low high : UInt64) :
    (setBounds low high).fields =
      (declared.withPc u resolver (.range low high)).addressFields := by
  have hfields : (declared.withPc u resolver (.range low high)).addressFields =
      { low := some low, high := some high, ranges := declared.ranges } := rfl
  rw [hfields, h.1]
  rfl

theorem fields_setRanges (ranges : List (UInt64 × UInt64)) :
    (setRanges ranges).fields = (declared.withRanges ranges).addressFields := by
  cases ranges with
  | nil => exact (addressFields_of_none h).symm
  | cons first rest =>
    rw [withRanges, hull?_cons]
    rfl

/-- A reading that fails sets no field, and no addresses are stated. -/
theorem fields_ofExcept_bind {α : Type} {x : Except Fault α} {next : α → Setting Unit}
    {source : α → Option PcSource}
    (hnext : ∀ a, (next a).fields =
      (declared.withPc u resolver ((source a).getD .none)).addressFields) :
    (ofExcept x >>= next).fields =
      (declared.withPc u resolver ((x.toOption >>= source).getD .none)).addressFields := by
  cases x with
  | error fault => exact (addressFields_of_none h).symm
  | ok a => exact hnext a

theorem fields_rangeList (offset : UInt64) (base : Option UInt64) :
    (ofExcept (u.rangeList offset (base.getD resolver.base.get)) >>= setRanges).fields =
      (declared.withPc u resolver (.list offset base)).addressFields := by
  rw [withPc]
  cases u.rangeList offset (base.getD resolver.base.get) with
  | error fault => exact (addressFields_of_none h).symm
  | ok ranges => exact fields_setRanges h ranges

theorem fields_setFromList :
    (e.setFromList u resolver).fields =
      (declared.withPc u resolver ((e.listSource u).getD .none)).addressFields := by
  refine fields_ofExcept_bind h fun a => ?_
  by_cases hundecoded : 5 ≤ u.header.version ∨ a.form = .rnglistx
  · rw [if_pos hundecoded, guard, if_neg]
    · exact (addressFields_of_none h).symm
    · exact fun hdecoded => hundecoded.elim (Nat.not_le_of_lt hdecoded.1) hdecoded.2
  · have hdecoded : u.header.version < 5 ∧ a.form ≠ .rnglistx := by
      rwa [not_or, Nat.not_le] at hundecoded
    rw [if_neg hundecoded, guard, if_pos hdecoded]
    refine fields_ofExcept_bind h fun offset => ?_
    rw [listBase]
    by_cases hroot : e.offset = u.header.rootOffset
    · rw [if_pos hroot, if_pos hroot]
      cases e.attr u KnownAttribute.lowPc.code with
      | error fault => exact fields_rangeList h offset (some 0)
      | ok low => exact fields_ofExcept_bind h fun base => fields_rangeList h offset (some base)
    · rw [if_neg hroot, if_neg hroot]
      exact fields_rangeList h offset none

theorem fields_setFromBounds :
    (e.setFromBounds u).fields =
      (declared.withPc u resolver ((e.boundsSource u).getD .none)).addressFields :=
  fields_ofExcept_bind h fun low => fields_ofExcept_bind h fun high => fields_setBounds h low high

theorem fields_setFromLocation :
    (e.setFromLocation u).fields =
      (declared.withPc u resolver ((e.locationSource u).getD .none)).addressFields := by
  rw [setFromLocation, locationSource]
  cases e.locationAddress u with
  | error fault => exact (addressFields_of_none h).symm
  | ok address =>
    cases address with
    | none => exact (addressFields_of_none h).symm
    | some address =>
      change (if address ≠ 0 then setBounds address (address + 1) else pure ()).fields =
        (declared.withPc u resolver ((guard (address ≠ 0) >>= fun _ =>
          some (.range address (address + 1))).getD .none)).addressFields
      by_cases hzero : address = 0
      · rw [guard, if_neg (not_not.2 hzero), if_neg (not_not.2 hzero)]
        exact (addressFields_of_none h).symm
      · rw [guard, if_pos hzero, if_pos hzero]
        exact fields_setBounds h address (address + 1)

/-- Set one by one, the fields are those of the entry that is resolved. -/
theorem fields_setAddresses :
    (e.setAddresses u resolver).fields =
      (declared.withPc u resolver (e.pcSource u)).addressFields := by
  rw [setAddresses, pcSource]
  split
  · exact fields_setFromList h
  · split
    · exact fields_setFromBounds h
    · split
      · exact fields_setFromLocation h
      · exact (addressFields_of_none h).symm

end

theorem fields_of_read {offset : Nat} {p q : Progress}
    (hread : u.read u.resolver .full offset p = .ok e q) :
    ∃ found, u.find offset = .ok found ∧
      (found.setAddresses u u.resolver).fields = e.addressFields := by
  obtain ⟨found, hfind, rfl⟩ := DebugUnit.find_of_read_full hread
  obtain ⟨declared, hnone, hresolve⟩ :=
    exists_resolve u u.resolver found (unresolved_of_find hfind)
  refine ⟨found, hfind, ?_⟩
  rw [hresolve]
  exact fields_setAddresses hnone

theorem wellBounded_of_read {offset : Nat} {p q : Progress}
    (hread : u.read u.resolver .full offset p = .ok e q) : e.WellBounded := by
  obtain ⟨found, hfind, rfl⟩ := DebugUnit.find_of_read_full hread
  have hlisted : (u.listed u.resolver 0 found).WellBounded :=
    wellBounded_listed (unresolved_of_find hfind).1
  exact hlisted

/-- The bounds of an entry that lists ranges are what the ranges span. -/
theorem WellBounded.spans (h : e.WellBounded) (hranges : e.ranges ≠ []) :
    ∃ low high, e.pcRange = some (low, high) ∧ Spans e.ranges low high := by
  have hhull := h.resolve_left hranges
  cases hbounds : hull? e.ranges with
  | none => exact absurd (hull?_eq_none.1 hbounds) hranges
  | some bounds =>
    obtain ⟨hlow, hhigh⟩ := hull?_mem hbounds
    exact ⟨bounds.1, bounds.2, hhull.trans hbounds, hlow, hhigh, hull?_bounds hbounds⟩

theorem addressFields_eq_some {low high : UInt64} (h : e.pcRange = some (low, high)) :
    e.addressFields.low = some low ∧ e.addressFields.high = some high := by
  rw [addressFields, h]
  exact ⟨rfl, rfl⟩

/-- The bounds of a unit enclose those of each of its entries. -/
theorem exists_pcBounds {low high : UInt64} (he : e ∈ u.entryList)
    (hpc : e.pcRange = some (low, high)) (p : Progress) :
    ∃ least greatest, u.pcBounds.answer p = .ok (some (least, greatest)) ∧
      least ≤ low ∧ high ≤ greatest := by
  have hmem : (low, high) ∈ u.entryList.filterMap (·.pcRange) :=
    List.mem_filterMap.2 ⟨e, he, hpc⟩
  rw [DebugUnit.answer_pcBounds]
  cases hhull : hull? (u.entryList.filterMap (·.pcRange)) with
  | none =>
    rw [hull?_eq_none.1 hhull] at hmem
    cases hmem
  | some bounds => exact ⟨bounds.1, bounds.2, rfl, hull?_bounds hhull _ hmem⟩

/-- However the setting of its fields ends, an entry that is read in full has both bounds or none.
They are what its ranges span, if it lists any, and enclose all of its addresses, and the bounds of
the unit enclose them. -/
theorem bounds_of_read {offset : Nat} {p q : Progress}
    (hread : u.read u.resolver .full offset p = .ok e q) :
    ∃ found, u.find offset = .ok found ∧
      let left := (found.setAddresses u u.resolver).fields
      left = e.addressFields ∧
      (left.low.isSome ↔ left.high.isSome) ∧
      (left.ranges ≠ [] → ∃ low high, left.low = some low ∧ left.high = some high ∧
        Spans left.ranges low high) ∧
      (∀ address, e.containsAddress address = true →
        ∃ low high, left.low = some low ∧ left.high = some high ∧
          low ≤ address ∧ address < high) ∧
      ∀ r entries depth, u.entries.answer r = .ok entries → { e with depth } ∈ entries →
        ∀ low high, left.low = some low → left.high = some high →
          ∃ least greatest, u.pcBounds.answer r = .ok (some (least, greatest)) ∧
            least ≤ low ∧ high ≤ greatest := by
  obtain ⟨found, hfind, hleft⟩ := fields_of_read hread
  have hbounded := wellBounded_of_read hread
  refine ⟨found, hfind, ?_⟩
  intro left
  have hleft : left = e.addressFields := hleft
  rw [hleft]
  refine ⟨rfl, ?_, fun hranges => ?_, fun address haddress => ?_, ?_⟩
  · rw [addressFields, Option.isSome_map, Option.isSome_map]
  · obtain ⟨low, high, hpc, hspans⟩ := hbounded.spans hranges
    obtain ⟨hlow, hhigh⟩ := addressFields_eq_some hpc
    exact ⟨low, high, hlow, hhigh, hspans⟩
  · obtain ⟨low, high, hpc, hin⟩ := hbounded.bounds haddress
    obtain ⟨hlow, hhigh⟩ := addressFields_eq_some hpc
    exact ⟨low, high, hlow, hhigh, hin⟩
  · intro r entries depth hentries hmem low high hlow hhigh
    rw [DebugUnit.answer_entries] at hentries
    cases hentries
    obtain ⟨bounds, hpc, rfl⟩ := Option.map_eq_some_iff.1 hlow
    obtain ⟨bounds', hpc', rfl⟩ := Option.map_eq_some_iff.1 hhigh
    obtain rfl := Option.some.inj (hpc.symm.trans hpc')
    exact exists_pcBounds hmem hpc r

end Entry

namespace DebugInfo

theorem listed_listedEntry_mem :
    constantLowUnit.listed constantLowUnit.resolver 1 (listedEntry.entryAt 20) ∈
      constantLowUnit.entryList := by
  have hroot : constantLowUnit.entryList =
      constantLowUnit.listed constantLowUnit.resolver 0 (constantLowEntry.entryAt 11) ::
        constantLowUnit.walk constantLowUnit.resolver 20 1 :=
    DebugUnit.walk_of_find find_constantLowEntry
  have hchild : constantLowUnit.walk constantLowUnit.resolver 20 1 =
      constantLowUnit.listed constantLowUnit.resolver 1 (listedEntry.entryAt 20) ::
        constantLowUnit.walk constantLowUnit.resolver 25 1 :=
    DebugUnit.walk_of_find find_listedEntry
  rw [hroot, hchild]
  exact List.mem_cons_of_mem _ List.mem_cons_self

theorem addressFields_listedEntry :
    ((listedEntry.entryAt 20).resolve constantLowUnit constantLowUnit.resolver).addressFields =
      { low := some 0x10, high := some 0x20, ranges := [(0x10, 0x20)] } := by
  obtain ⟨declared, -, hresolve⟩ := Entry.exists_resolve constantLowUnit
    constantLowUnit.resolver _ (Entry.unresolved_of_find find_listedEntry)
  have hbased : ¬ (listedEntry.entryAt 20).Misbased constantLowUnit :=
    fun h => absurd h.1 (by decide)
  obtain ⟨base, hsource, hbase⟩ :=
    namesRanges_listedEntry.exists_pcSource find_listedEntry (by decide) hbased
  have hbase : base.getD constantLowUnit.resolver.base.get = constantLowUnit.baseAddress := hbase
  rw [hresolve, hsource, Entry.withPc, hbase, rangeList_constantLowUnit]
  rfl

theorem bounds_of_read_listedEntry :
    ∃ child q,
      constantLowUnit.read constantLowUnit.resolver .full 20 {} = .ok child q ∧
      child.addressFields.low = some 0x10 ∧ child.addressFields.high = some 0x20 ∧
      child.containsAddress 0x18 = true ∧
      ∃ least greatest, constantLowUnit.pcBounds.answer {} = .ok (some (least, greatest)) ∧
        least ≤ 0x10 ∧ 0x20 ≤ greatest := by
  obtain ⟨q, hread⟩ := exists_read_listedEntry {}
  obtain ⟨found, -, hleft, -, -, -, henclosed⟩ := Entry.bounds_of_read hread
  rw [hleft, addressFields_listedEntry] at henclosed
  refine ⟨_, q, hread, ?_, ?_, ?_, ?_⟩
  · rw [addressFields_listedEntry]
  · rw [addressFields_listedEntry]
  · have hranges := congrArg AddressFields.ranges addressFields_listedEntry
    change Entry.ranges _ = _ at hranges
    rw [Entry.containsAddress, hranges]
    decide
  · exact henclosed {} _ 1 (DebugUnit.answer_entries ..) listed_listedEntry_mem 0x10 0x20 rfl rfl

end DebugInfo

end StackSurvey.Dwarf
