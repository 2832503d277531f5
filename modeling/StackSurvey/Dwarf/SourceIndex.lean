import StackSurvey.Dwarf.Entry
import StackSurvey.PartitionPoint

namespace StackSurvey.Dwarf

/-- An entry with a source and addresses. -/
structure SourceSpan where
  low : UInt64
  high : UInt64
  path : String
  entry : Entry

/-- The span of an entry, if it has a source and addresses. -/
def SourceSpan.ofEntry? (e : Entry) : Option SourceSpan := do
  let path ← e.path
  let (low, high) ← e.pcRange
  return { low, high, path, entry := e }

/-- A span of an index, and the highest address past it and all spans before it. -/
structure IndexedSpan where
  span : SourceSpan
  reach : UInt64

/-- Spans by low address, those with the same one in the order of their entries. -/
structure SourceIndex where
  spans : Array IndexedSpan

namespace SourceIndex

/-- Spans with their reach, after spans with some reach. -/
def withReach (reach : UInt64) : List SourceSpan → List IndexedSpan
  | [] => []
  | span :: spans =>
    let reach := max reach span.high
    { span, reach } :: withReach reach spans

/-- The index of entries. -/
def ofEntries (entries : List Entry) : SourceIndex :=
  let spans := (entries.filterMap SourceSpan.ofEntry?).mergeSort fun a b => a.low ≤ b.low
  { spans := (withReach 0 spans).toArray }

/-- The last of the first `count` spans that contains an address. Where no earlier span reaches
past the address the search ends. -/
def findBelow? (index : SourceIndex) (address : UInt64) : Nat → Option SourceSpan
  | 0 => none
  | count + 1 =>
    match index.spans[count]? with
    | none => findBelow? index address count
    | some { span, reach } =>
      if reach ≤ address then none
      else if span.entry.containsAddress address then some span
      else findBelow? index address count

/-- The span that contains an address and begins closest below it. -/
def find? (index : SourceIndex) (address : UInt64) : Option SourceSpan :=
  index.findBelow? address (partitionPoint (·.span.low ≤ address) index.spans)

end SourceIndex

end StackSurvey.Dwarf
