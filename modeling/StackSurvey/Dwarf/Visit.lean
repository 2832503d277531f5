import StackSurvey.Dwarf.Resolution

namespace StackSurvey.Dwarf

/-- How much of an entry is read. -/
inductive ReadMode where
  /-- The entry and everything that it says of itself. -/
  | full
  /-- Only where its attributes are; enough to step over it. -/
  | fast
deriving DecidableEq, Inhabited

/-- What has been decoded of a unit so far. What is loaded once for a unit is counted once. -/
structure Progress where
  /-- Entries decoded, those that could not be decoded included. -/
  decodes : Nat := 0
  lineTable : Bool := false
  base : Bool := false
  root : Bool := false
  entries : Bool := false
deriving DecidableEq, Inhabited

/-- A computation on the entries of a unit. -/
abbrev Visit (α : Type) : Type := EStateM Fault Progress α

namespace Progress

def count (p : Progress) : Progress := { p with decodes := p.decodes + 1 }

/-- The line table is needed; loading it decodes the root. -/
def needLineTable (p : Progress) : Progress :=
  if p.lineTable then p else { p.count with lineTable := true }

/-- The base address is needed; finding it decodes the root. -/
def needBase (p : Progress) : Progress :=
  if p.base then p else { p.count with base := true }

def resolving (u : DebugUnit) (e : Entry) (p : Progress) : Progress :=
  let p := if (e.declaration? u).isSome then p.needLineTable else p
  match e.pcSource u with
  | .list _ none => p.needBase
  | _ => p

end Progress

/-- Where stepping over lists of children leads to. -/
inductive ListStep where
  /-- The outermost list ends before an offset. -/
  | done (offset : Nat)
  /-- The next entry, and the number of lists that are open there. -/
  | on (offset depth : Nat)

/-- The offset that a step leads to. -/
def ListStep.offset : ListStep → Nat
  | done offset => offset
  | on offset _ => offset

namespace Entry

/-- Where an entry leads to inside `depth` open lists of children. A list that its parent says how
to pass over is not entered. -/
def stepOver (u : DebugUnit) (e : Entry) (depth : Nat) : ListStep :=
  if e.isTerminator then
    if depth ≤ 1 then .done e.nextOffset else .on e.nextOffset (depth - 1)
  else if e.hasChildren then
    match e.siblingTarget? u with
    | some target => .on target depth
    | none => .on e.nextOffset (depth + 1)
  else
    .on e.nextOffset depth

theorem lt_of_stepOver {u : DebugUnit} {e : Entry} {depth : Nat} {step : ListStep}
    (he : e.offset < e.nextOffset) (h : e.stepOver u depth = step) : e.offset < step.offset := by
  subst h
  unfold stepOver
  split
  · split <;> exact he
  · split
    · split
      · exact lt_of_siblingTarget? ‹_›
      · exact he
    · exact he

end Entry

namespace DebugUnit

def read (u : DebugUnit) (resolver : Resolver) (mode : ReadMode) (offset : Nat) : Visit Entry :=
  fun p =>
    match u.find offset, mode with
    | .error fault, _ => .error fault p.count
    | .ok e, .fast => .ok e p.count
    | .ok e, .full => .ok (e.resolve u resolver) (p.count.resolving u e)

/-- Goes from an offset inside `depth` open lists of children to just past the end of the
outermost. -/
def skipLists (u : DebugUnit) (offset depth : Nat) : Visit Nat := fun p =>
  match _hf : u.find offset with
  | .error fault => .error fault p.count
  | .ok e =>
    match _hs : e.stepOver u depth with
    | .done stop => .ok stop p.count
    | .on next depth => u.skipLists next depth p.count
termination_by u.region.stop - offset
decreasing_by
  have := find_bounds _hf
  have := Entry.lt_of_stepOver (by omega) _hs
  simp only [ListStep.offset] at this
  omega

/-- One step of `skipLists`. -/
theorem skipLists_eq (u : DebugUnit) (offset depth : Nat) (p : Progress) :
    u.skipLists offset depth p =
      match u.find offset with
      | .error fault => .error fault p.count
      | .ok e =>
        match e.stepOver u depth with
        | .done stop => .ok stop p.count
        | .on next depth => u.skipLists next depth p.count := by
  rw [skipLists]
  split <;> rename_i hf <;> simp only [hf]
  split <;> rename_i hs <;> simp only [hs]

theorem lt_of_skipLists {u : DebugUnit} {offset depth found : Nat} {p q : Progress}
    (h : u.skipLists offset depth p = .ok found q) : offset < found := by
  induction offset, depth, p using skipLists.induct u with
  | case1 offset depth p fault hf =>
    rw [skipLists_eq, hf] at h
    cases h
  | case2 offset depth p e hf stop hs =>
    simp only [skipLists_eq, hf, hs] at h
    cases h
    have := find_bounds hf
    have := Entry.lt_of_stepOver (by omega) hs
    simp only [ListStep.offset] at this
    omega
  | case3 offset depth p e hf next deeper hs ih =>
    rw [skipLists_eq] at h
    simp only [hf, hs] at h
    have := ih h
    have := find_bounds hf
    have := Entry.lt_of_stepOver (by omega) hs
    simp only [ListStep.offset] at this
    omega

/-- The offset just past an entry and everything below it. -/
def siblingOffset (u : DebugUnit) (e : Entry) : Visit Nat :=
  if e.hasChildren then
    match e.siblingTarget? u with
    | some target => pure target
    | none => u.skipLists e.nextOffset 1
  else
    pure e.nextOffset

theorem lt_of_siblingOffset {u : DebugUnit} {e : Entry} {found : Nat} {p q : Progress}
    (he : e.offset < e.nextOffset) (h : u.siblingOffset e p = .ok found q) :
    e.offset < found := by
  by_cases hc : e.hasChildren = true
  · cases ht : e.siblingTarget? u with
    | none =>
      simp only [siblingOffset, hc, ht, if_true] at h
      have := lt_of_skipLists h
      omega
    | some target =>
      simp only [siblingOffset, hc, ht, if_true] at h
      cases h
      exact Entry.lt_of_siblingTarget? ht
  · simp only [siblingOffset, hc] at h
    cases h
    exact he

/-- Reads the entry after an entry and everything below it. -/
def next (u : DebugUnit) (e : Entry) (mode : ReadMode) : Visit Entry := do
  let sibling ← u.read u.resolver mode (← u.siblingOffset e)
  return { sibling with depth := e.depth }

theorem find_of_read {u : DebugUnit} {resolver : Resolver} {mode : ReadMode} {offset : Nat}
    {e : Entry} {p q : Progress} (h : u.read resolver mode offset p = .ok e q) :
    ∃ found, u.find offset = .ok found ∧ e.offset = found.offset
      ∧ e.nextOffset = found.nextOffset := by
  unfold read at h
  split at h <;> cases h
  · exact ⟨_, ‹_›, rfl, rfl⟩
  · exact ⟨_, ‹_›, Entry.offset_resolve .., Entry.nextOffset_resolve ..⟩

/-- Reads the siblings from an offset on, after those read before. -/
def siblings (u : DebugUnit) (resolver : Resolver) (mode : ReadMode) (depth offset : Nat)
    (before : Array Entry) : Visit (Array Entry) := fun p =>
  match _hr : u.read resolver mode offset p with
  | .error fault q => .error fault q
  | .ok e q =>
    if e.isTerminator then
      .ok before q
    else
      match _hs : u.siblingOffset e q with
      | .error fault q => .error fault q
      | .ok next q => u.siblings resolver mode depth next (before.push { e with depth }) q
termination_by u.region.stop - offset
decreasing_by
  obtain ⟨found, hf, ho, hn⟩ := find_of_read _hr
  have := find_bounds hf
  have := lt_of_siblingOffset (by omega) _hs
  omega

def children (u : DebugUnit) (e : Entry) (mode : ReadMode) : Visit (List Entry) :=
  if e.hasChildren then
    Array.toList <$> u.siblings u.resolver mode (e.depth + 1) e.nextOffset #[]
  else
    pure []

/-- Reads all entries from an offset on, after those read before, up to one that cannot be read.
Reading ends with the list of children that the root opens, or with a root that opens none. -/
def entriesFrom (u : DebugUnit) (resolver : Resolver) (offset depth : Nat)
    (before : Array Entry) (p : Progress) : Array Entry × Progress :=
  if offset < u.region.stop then
    match _hr : u.read resolver .full offset p with
    | .error _ q => (before, q)
    | .ok e q =>
      if e.isTerminator then
        if depth ≤ 1 then (before, q)
        else u.entriesFrom resolver e.nextOffset (depth - 1) before q
      else if e.hasChildren then
        u.entriesFrom resolver e.nextOffset (depth + 1) (before.push { e with depth }) q
      else if depth = 0 then (before.push { e with depth }, q)
      else u.entriesFrom resolver e.nextOffset depth (before.push { e with depth }) q
  else
    (before, p)
termination_by u.region.stop - offset
decreasing_by
  all_goals
    obtain ⟨found, hf, _, hn⟩ := find_of_read _hr
    have := find_bounds hf
    omega

/-- Reads all entries in the order in which they are written. Reading them again decodes
nothing. -/
def entries (u : DebugUnit) : Visit (List Entry) := fun p =>
  let (entries, q) := u.entriesFrom u.resolver u.header.rootOffset 0 #[] p
  .ok entries.toList (if p.entries then p else { q with entries := true })

/-- Reads the root. Once it has been read, reading it again decodes nothing. -/
def root (u : DebugUnit) : Visit Entry := fun p =>
  match u.read u.resolver .full u.header.rootOffset p with
  | .ok e q => .ok e (if p.root then p else { q with root := true })
  | .error fault q => .error fault q

def readLineTable (u : DebugUnit) : Visit (Option LineTable) := fun p =>
  .ok u.lineTable p.needLineTable

def readBase (u : DebugUnit) : Visit UInt64 := fun p => .ok u.baseAddress p.needBase

/-- The lowest address of the unit's entries, and the first past all of them. -/
def pcBounds (u : DebugUnit) : Visit (Option (UInt64 × UInt64)) := do
  return Entry.hull? ((← u.entries).filterMap (·.pcRange))

end DebugUnit

end StackSurvey.Dwarf
