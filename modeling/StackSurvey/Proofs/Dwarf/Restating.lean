import StackSurvey.Proofs.Dwarf.Traversal

namespace StackSurvey.Dwarf

/-- An attribute is read the same in two units. -/
structure Attribute.ReadsAlike (u v : DebugUnit) (a : Attribute) : Prop where
  address : a.address v = a.address u
  unsigned : a.unsigned v = a.unsigned u
  sectionOffset : a.sectionOffset v = a.sectionOffset u
  string : a.string v = a.string u
  expression : a.expression v = a.expression u

/-- An entry states what an entry of another unit states, except where its next sibling begins. -/
structure Restates (u v : DebugUnit) (e e' : Entry) : Prop where
  header_eq : v.header = u.header
  offset_eq : e'.offset = e.offset
  hasKnown_eq : ∀ known : KnownAttribute, known ≠ .sibling →
    e'.hasKnown known = e.hasKnown known
  attr_eq : ∀ known : KnownAttribute, known ≠ .sibling →
    e'.attr v known.code = e.attr u known.code
  readsAlike : ∀ (known : KnownAttribute) a, e.attr u known.code = .ok a → a.ReadsAlike u v

variable {u v : DebugUnit} {e e' : Entry}

namespace Restates

variable {α : Type} {known : KnownAttribute} {reading : DebugUnit → Attribute → Except Fault α}

theorem value_eq (h : Restates u v e e') (hne : known ≠ .sibling)
    (hreading : ∀ {a : Attribute}, a.ReadsAlike u v → reading v a = reading u a) :
    e'.value v known reading = e.value u known reading := by
  rw [Entry.value, Entry.value, h.attr_eq known hne]
  cases hattr : e.attr u known.code with
  | error fault => rfl
  | ok a => exact hreading (h.readsAlike known a hattr)

theorem value?_eq (h : Restates u v e e') (hne : known ≠ .sibling)
    (hreading : ∀ {a : Attribute}, a.ReadsAlike u v → reading v a = reading u a) :
    e'.value? v known reading = e.value? u known reading := by
  rw [Entry.value?, Entry.value?, h.value_eq hne hreading]

theorem unsigned?_eq (h : Restates u v e e') (hne : known ≠ .sibling) :
    e'.value? v known Attribute.unsigned = e.value? u known Attribute.unsigned :=
  h.value?_eq hne Attribute.ReadsAlike.unsigned

theorem declaration?_eq (h : Restates u v e e') : e'.declaration? v = e.declaration? u := by
  rw [Entry.declaration?, Entry.declaration?, h.hasKnown_eq _ KnownAttribute.noConfusion,
    h.hasKnown_eq _ KnownAttribute.noConfusion, h.hasKnown_eq _ KnownAttribute.noConfusion,
    h.unsigned?_eq KnownAttribute.noConfusion, h.unsigned?_eq KnownAttribute.noConfusion,
    h.unsigned?_eq KnownAttribute.noConfusion]

theorem listSource_eq (h : Restates u v e e') : e'.listSource v = e.listSource u := by
  rw [Entry.listSource, Entry.listSource, h.attr_eq .ranges KnownAttribute.noConfusion,
    h.attr_eq .lowPc KnownAttribute.noConfusion, h.header_eq, h.offset_eq]
  cases hattr : e.attr u KnownAttribute.ranges.code with
  | error fault => rfl
  | ok a =>
    have hsection := (h.readsAlike .ranges a hattr).sectionOffset
    cases hlow : e.attr u KnownAttribute.lowPc.code with
    | error fault =>
      dsimp only [Except.toOption, Option.bind_eq_bind, Option.bind_some]
      rw [hsection]
    | ok low =>
      dsimp only [Except.toOption, Option.bind_eq_bind, Option.bind_some]
      rw [hsection, (h.readsAlike .lowPc low hlow).address]

theorem highAddress_eq (h : Restates u v e e') (low : UInt64) :
    e'.highAddress v low = e.highAddress u low := by
  rw [Entry.highAddress, Entry.highAddress, h.attr_eq .highPc KnownAttribute.noConfusion,
    h.hasKnown_eq .highPc KnownAttribute.noConfusion]
  cases hattr : e.attr u KnownAttribute.highPc.code with
  | error fault => rfl
  | ok high =>
    have hhigh := h.readsAlike .highPc high hattr
    simp only [bind, Except.bind, hhigh.address, hhigh.unsigned]

theorem boundsSource_eq (h : Restates u v e e') : e'.boundsSource v = e.boundsSource u := by
  have hlow : e'.value? v .lowPc Attribute.address = e.value? u .lowPc Attribute.address :=
    h.value?_eq KnownAttribute.noConfusion Attribute.ReadsAlike.address
  simp only [Entry.boundsSource, hlow, h.highAddress_eq]

theorem locationAddress_eq (h : Restates u v e e') :
    e'.locationAddress v = e.locationAddress u := by
  rw [Entry.locationAddress, Entry.locationAddress,
    h.attr_eq .location KnownAttribute.noConfusion]
  cases hattr : e.attr u KnownAttribute.location.code with
  | error fault => rfl
  | ok a =>
    have ha := h.readsAlike .location a hattr
    simp only [bind, Except.bind, ha.address, ha.expression]

theorem locationSource_eq (h : Restates u v e e') :
    e'.locationSource v = e.locationSource u := by
  rw [Entry.locationSource, Entry.locationSource, h.locationAddress_eq]

theorem pcSource_eq (h : Restates u v e e') : e'.pcSource v = e.pcSource u := by
  rw [Entry.pcSource, Entry.pcSource, h.hasKnown_eq _ KnownAttribute.noConfusion,
    h.hasKnown_eq _ KnownAttribute.noConfusion, h.hasKnown_eq _ KnownAttribute.noConfusion,
    h.listSource_eq, h.boundsSource_eq, h.locationSource_eq]

end Restates

/-- A change of entries that leaves alone what is followed and what resolving sets. -/
structure Entry.Relabelling (f : Entry → Entry) : Prop where
  nextOffset_eq : ∀ e, (f e).nextOffset = e.nextOffset
  isTerminator_eq : ∀ e, (f e).isTerminator = e.isTerminator
  hasChildren_eq : ∀ e, (f e).hasChildren = e.hasChildren
  withDepth : ∀ e depth, { f e with depth } = f { e with depth }
  withName : ∀ e name, { f e with name } = f { e with name }
  withPlace : ∀ e path line column,
    { f e with path, line, column } = f { e with path, line, column }
  withPcRange : ∀ e pcRange, { f e with pcRange } = f { e with pcRange }
  withRanges : ∀ e pcRange ranges,
    { f e with pcRange, ranges } = f { e with pcRange, ranges }

/-- A unit has the entries of another unit under other labels, and they state the same there. -/
structure DebugUnit.RestatedBy (u v : DebugUnit) (f : Entry → Entry) : Prop where
  relabelling : Entry.Relabelling f
  find_eq : ∀ offset, v.find offset = (u.find offset).map f
  restates : ∀ offset e, u.find offset = .ok e → Restates u v e (f e)
  header_eq : v.header = u.header
  region_eq : v.region = u.region
  rangeList_eq : v.rangeList = u.rangeList
  line_eq : v.sections.line = u.sections.line
  load_eq : LineTable.load v.sections = LineTable.load u.sections

namespace Entry.Relabelling

variable {f : Entry → Entry}

theorem withDeclaration_eq (h : Relabelling f) (e : Entry) (lineTable : Option LineTable)
    (d : Declaration) :
    (f e).withDeclaration lineTable d = f (e.withDeclaration lineTable d) := by
  unfold withDeclaration
  split
  · exact h.withPlace ..
  · rfl

theorem withRanges_eq (h : Relabelling f) (e : Entry) (ranges : List (UInt64 × UInt64)) :
    (f e).withRanges ranges = f (e.withRanges ranges) := by
  unfold Entry.withRanges
  split
  · exact h.withRanges ..
  · rfl

theorem withPc_eq (h : Relabelling f) (hbase : v.baseAddress = u.baseAddress)
    (hranges : v.rangeList = u.rangeList) (e : Entry) (source : PcSource) :
    (f e).withPc v v.resolver source = f (e.withPc u u.resolver source) := by
  have hbase : v.resolver.base.get = u.resolver.base.get := hbase
  cases source with
  | none => rfl
  | range low high => exact h.withPcRange ..
  | list offset base =>
    rw [withPc, withPc, hbase, hranges]
    split
    · exact h.withRanges_eq e _
    · rfl

/-- What an entry says of itself it says under its other label, where the tables of both units are
the same. -/
theorem resolve_eq (h : Relabelling f) (hstates : Restates u v e (f e))
    (htable : v.lineTable = u.lineTable) (hbase : v.baseAddress = u.baseAddress)
    (hranges : v.rangeList = u.rangeList) :
    (f e).resolve v v.resolver = f (e.resolve u u.resolver) := by
  have htable : v.resolver.lineTable.get = u.resolver.lineTable.get := htable
  rw [resolve, resolve, hstates.declaration?_eq, hstates.pcSource_eq, htable,
    ← h.withPc_eq hbase hranges,
    hstates.value?_eq KnownAttribute.noConfusion Attribute.ReadsAlike.string]
  rw [h.withName]
  cases e.declaration? u with
  | none => rfl
  | some d =>
    dsimp only
    rw [h.withDeclaration_eq]

end Entry.Relabelling

namespace DebugUnit

theorem lineTable_of_error {fault : Fault} (h : u.find u.header.rootOffset = .error fault) :
    u.lineTable = none := by
  rw [lineTable, loadLineTable, h]
  rfl

theorem loadLineTable_of_find {root : Entry} (h : u.find u.header.rootOffset = .ok root) :
    u.loadLineTable =
      if !root.hasKnown .stmtList ∨ u.sections.line.isNone then
        .ok none
      else
        root.value u .stmtList Attribute.sectionOffset >>= fun offset =>
          some <$> LineTable.load u.sections
            { offset
              addressSize := u.header.addressSize
              order := u.region.order
              compDir := root.value? u .compDir Attribute.string
              compName := root.value? u .name Attribute.string } := by
  rw [loadLineTable, h]
  rfl

section Roots

variable {root root' : Entry}

theorem baseAddress_congr (hroot : u.find u.header.rootOffset = .ok root)
    (hroot' : v.find v.header.rootOffset = .ok root') (h : Restates u v root root') :
    v.baseAddress = u.baseAddress := by
  have hlow : root'.value v .lowPc Attribute.address = root.value u .lowPc Attribute.address :=
    h.value_eq KnownAttribute.noConfusion Attribute.ReadsAlike.address
  rw [baseAddress, baseAddress, hroot, hroot']
  simp only [bind, Except.bind, hlow]

/-- Roots that state the same name the same line table. -/
theorem lineTable_congr (hroot : u.find u.header.rootOffset = .ok root)
    (hroot' : v.find v.header.rootOffset = .ok root') (h : Restates u v root root')
    (hregion : v.region = u.region) (hline : v.sections.line = u.sections.line)
    (hload : LineTable.load v.sections = LineTable.load u.sections) :
    v.lineTable = u.lineTable := by
  rw [lineTable, lineTable, loadLineTable_of_find hroot, loadLineTable_of_find hroot', hload,
    hline, h.header_eq, hregion, h.hasKnown_eq _ KnownAttribute.noConfusion,
    h.value_eq KnownAttribute.noConfusion Attribute.ReadsAlike.sectionOffset,
    h.value?_eq KnownAttribute.noConfusion Attribute.ReadsAlike.string,
    h.value?_eq KnownAttribute.noConfusion Attribute.ReadsAlike.string]

end Roots

namespace RestatedBy

variable {f : Entry → Entry} {offset depth : Nat}

theorem find_of_find (h : u.RestatedBy v f) (hfind : u.find offset = .ok e) :
    v.find offset = .ok (f e) := by
  rw [h.find_eq, hfind]
  rfl

theorem find_of_error (h : u.RestatedBy v f) {fault : Fault}
    (hfind : u.find offset = .error fault) : v.find offset = .error fault := by
  rw [h.find_eq, hfind]
  rfl

theorem baseAddress_eq (h : u.RestatedBy v f) : v.baseAddress = u.baseAddress := by
  cases hroot : u.find u.header.rootOffset with
  | error fault =>
    rw [baseAddress, baseAddress, h.header_eq, hroot, h.find_of_error hroot]
    rfl
  | ok root =>
    exact baseAddress_congr hroot (h.header_eq ▸ h.find_of_find hroot) (h.restates _ root hroot)

theorem lineTable_eq (h : u.RestatedBy v f) : v.lineTable = u.lineTable := by
  cases hroot : u.find u.header.rootOffset with
  | error fault =>
    have hroot' : v.find v.header.rootOffset = .error fault := h.header_eq ▸ h.find_of_error hroot
    rw [lineTable_of_error hroot, lineTable_of_error hroot']
  | ok root =>
    exact lineTable_congr hroot (h.header_eq ▸ h.find_of_find hroot) (h.restates _ root hroot)
      h.region_eq h.line_eq h.load_eq

/-- What an entry says of itself it says under its other label. -/
theorem resolve_eq (h : u.RestatedBy v f) (hstates : Restates u v e (f e)) :
    (f e).resolve v v.resolver = f (e.resolve u u.resolver) :=
  h.relabelling.resolve_eq hstates h.lineTable_eq h.baseAddress_eq h.rangeList_eq

/-- What follows an entry that is found in one unit follows it in the other. -/
theorem walk_of_find (h : u.RestatedBy v f) (hfind : u.find offset = .ok e) :
    v.walk v.resolver offset depth =
      if e.isTerminator then
        if depth ≤ 1 then [] else v.walk v.resolver e.nextOffset (depth - 1)
      else if e.hasChildren then
        f (u.listed u.resolver depth e) :: v.walk v.resolver e.nextOffset (depth + 1)
      else if depth = 0 then [f (u.listed u.resolver depth e)]
      else f (u.listed u.resolver depth e) :: v.walk v.resolver e.nextOffset depth := by
  have hlisted : v.listed v.resolver depth (f e) = f (u.listed u.resolver depth e) := by
    rw [listed, listed, h.resolve_eq (h.restates offset e hfind), h.relabelling.withDepth]
  rw [DebugUnit.walk_of_find (h.find_of_find hfind), hlisted, h.relabelling.isTerminator_eq,
    h.relabelling.hasChildren_eq, h.relabelling.nextOffset_eq]

theorem walk_eq (h : u.RestatedBy v f) (offset depth : Nat) :
    v.walk v.resolver offset depth = (u.walk u.resolver offset depth).map f := by
  induction offset, depth using walk.induct u with
  | case1 offset depth hlt fault hf =>
    rw [walk_of_error hf, walk_of_error (h.find_of_error hf)]
    rfl
  | case2 offset depth hlt e hf ht hd =>
    rw [h.walk_of_find hf, DebugUnit.walk_of_find hf, if_pos ht, if_pos ht, if_pos hd, if_pos hd]
    rfl
  | case3 offset depth hlt e hf ht hd ih =>
    rw [h.walk_of_find hf, DebugUnit.walk_of_find hf, if_pos ht, if_pos ht, if_neg hd, if_neg hd,
      ih]
  | case4 offset depth hlt e hf ht hc ih =>
    rw [h.walk_of_find hf, DebugUnit.walk_of_find hf, if_neg ht, if_neg ht, if_pos hc, if_pos hc,
      ih, List.map_cons]
  | case5 offset hlt e hf ht hc =>
    rw [h.walk_of_find hf, DebugUnit.walk_of_find hf, if_neg ht, if_neg ht, if_neg hc, if_neg hc,
      if_pos rfl, if_pos rfl, List.map_singleton]
  | case6 offset depth hlt e hf ht hc hd ih =>
    rw [h.walk_of_find hf, DebugUnit.walk_of_find hf, if_neg ht, if_neg ht, if_neg hc, if_neg hc,
      if_neg hd, if_neg hd, ih, List.map_cons]
  | case7 offset depth hlt =>
    rw [walk_of_not_lt hlt, walk_of_not_lt (h.region_eq ▸ hlt)]
    rfl

theorem entryList_eq (h : u.RestatedBy v f) : v.entryList = u.entryList.map f := by
  rw [entryList, entryList, h.header_eq]
  exact h.walk_eq _ _

end RestatedBy

end DebugUnit

end StackSurvey.Dwarf
