import StackSurvey.Dwarf.Entry
import StackSurvey.Dwarf.LineTable
import StackSurvey.Dwarf.RangeList

namespace StackSurvey.Dwarf

namespace DebugUnit

/-- The line table that the unit names, if it names one and the file has line tables. -/
def loadLineTable (u : DebugUnit) : Except Fault (Option LineTable) := do
  let root ← u.find u.header.rootOffset
  if !root.hasKnown .stmtList ∨ u.sections.line.isNone then
    return none
  let source : LineSource :=
    { offset := ← root.value u .stmtList Attribute.sectionOffset
      addressSize := u.header.addressSize
      order := u.region.order
      compDir := root.value? u .compDir Attribute.string
      compName := root.value? u .name Attribute.string }
  some <$> LineTable.load u.sections source

/-- The line table of the unit, if it has one that can be decoded. -/
def lineTable (u : DebugUnit) : Option LineTable := u.loadLineTable.toOption.join

/-- The base of the unit's range lists: the low address of its root, or zero. -/
def baseAddress (u : DebugUnit) : UInt64 :=
  match do (← u.find u.header.rootOffset).value u .lowPc Attribute.address with
  | .ok base => base
  | .error _ => 0

end DebugUnit

/-- What the entries of a unit are resolved with; each part is computed when it is first used. -/
structure Resolver where
  lineTable : Thunk (Option LineTable)
  base : Thunk UInt64

def DebugUnit.resolver (u : DebugUnit) : Resolver where
  lineTable := .mk fun _ => u.lineTable
  base := .mk fun _ => u.baseAddress

/-- A declaration as an entry states it, its file by index. -/
structure Declaration where
  file : UInt64
  line : UInt64
  column : UInt64
deriving DecidableEq, Inhabited

/-- Where the addresses of an entry are stated. -/
inductive PcSource where
  | none
  | range (low high : UInt64)
  /-- A range list, with a base of its own or that of the unit. -/
  | list (offset : UInt64) (base : Option UInt64)
deriving DecidableEq, Inhabited

namespace Entry

/-- The declaration that an entry states; without a column it is in column zero. -/
def declaration? (u : DebugUnit) (e : Entry) : Option Declaration := do
  guard (e.hasKnown .declFile ∧ e.hasKnown .declLine)
  let file ← e.value? u .declFile Attribute.unsigned
  let line ← e.value? u .declLine Attribute.unsigned
  let column ← if e.hasKnown .declColumn then e.value? u .declColumn Attribute.unsigned else some 0
  return { file, line, column }

/-- The range list of an entry. Those of version 5 are not decoded. The root has its own low
address as base, or zero if it has none. -/
def listSource (u : DebugUnit) (e : Entry) : Option PcSource := do
  let a ← (e.attr u KnownAttribute.ranges.code).toOption
  guard (u.header.version < 5 ∧ a.form ≠ .rnglistx)
  let offset ← (a.sectionOffset u).toOption
  if e.offset = u.header.rootOffset then
    match e.attr u KnownAttribute.lowPc.code with
    | .ok low => return .list offset (some (← (low.address u).toOption))
    | .error _ => return .list offset (some 0)
  else
    return .list offset none

/-- The first address past an entry that begins at `low`: an address, or a distance. -/
def highAddress (u : DebugUnit) (e : Entry) (low : UInt64) : Except Fault UInt64 := do
  if e.hasKnown .highPc then
    let high ← e.attr u KnownAttribute.highPc.code
    if high.form = .addr then
      high.address u
    else
      return low + (← high.unsigned u)
  else
    return low + 1

/-- The range between the low and the high address of an entry. -/
def boundsSource (u : DebugUnit) (e : Entry) : Option PcSource := do
  let low ← e.value? u .lowPc Attribute.address
  let high ← (e.highAddress u low).toOption
  return .range low high

/-- The address of a variable, if it has one that does not change. -/
def locationAddress (u : DebugUnit) (e : Entry) : Except Fault (Option UInt64) := do
  let a ← e.attr u KnownAttribute.location.code
  match a.form.formClass with
  | .address => some <$> a.address u
  | .block | .expression =>
    match ← (← a.expression u).evaluate [] with
    | .address address => return some address
    | _ => return none
  | _ => return none

/-- The address of a variable; zero stands for none. -/
def locationSource (u : DebugUnit) (e : Entry) : Option PcSource := do
  let address ← (e.locationAddress u).toOption.join
  guard (address ≠ 0)
  return .range address (address + 1)

/-- Where the addresses of an entry are stated: in a list, else between bounds, else in a
location. -/
def pcSource (u : DebugUnit) (e : Entry) : PcSource :=
  let source :=
    if e.hasKnown .ranges then e.listSource u
    else if e.hasKnown .lowPc then e.boundsSource u
    else if e.hasKnown .location then e.locationSource u
    else none
  source.getD .none

/-- The least first and the greatest second address of ranges. -/
def hull? : List (UInt64 × UInt64) → Option (UInt64 × UInt64)
  | [] => none
  | first :: rest =>
    some (rest.foldl (fun (low, high) (l, h) => (min low l, max high h)) first)

/-- The entry with the place of its declaration. -/
def withDeclaration (e : Entry) (lineTable : Option LineTable) (d : Declaration) : Entry :=
  match lineTable.bind (·.fileName? d.file) with
  | some path => { e with path := some path, line := d.line, column := d.column }
  | none => e

/-- The entry with the addresses of a range list. -/
def withRanges (e : Entry) (ranges : List (UInt64 × UInt64)) : Entry :=
  match hull? ranges with
  | some pcRange => { e with pcRange := some pcRange, ranges }
  | none => e

def withPc (u : DebugUnit) (resolver : Resolver) (e : Entry) : PcSource → Entry
  | .none => e
  | .range low high => { e with pcRange := some (low, high) }
  | .list offset base =>
    match u.rangeList offset (base.getD resolver.base.get) with
    | .ok ranges => e.withRanges ranges
    | .error _ => e

/-- The entry with everything that it says of itself. -/
def resolve (u : DebugUnit) (resolver : Resolver) (e : Entry) : Entry :=
  let named := { e with name := e.value? u .name Attribute.string }
  let declared := match e.declaration? u with
    | some d => named.withDeclaration resolver.lineTable.get d
    | none => named
  declared.withPc u resolver (e.pcSource u)

theorem offset_resolve (u : DebugUnit) (resolver : Resolver) (e : Entry) :
    (e.resolve u resolver).offset = e.offset := by
  unfold resolve withPc withRanges withDeclaration
  repeat' split
  all_goals rfl

theorem nextOffset_resolve (u : DebugUnit) (resolver : Resolver) (e : Entry) :
    (e.resolve u resolver).nextOffset = e.nextOffset := by
  unfold resolve withPc withRanges withDeclaration
  repeat' split
  all_goals rfl

end Entry

end StackSurvey.Dwarf
