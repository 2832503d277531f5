import StackSurvey.Dwarf.Attribute

namespace StackSurvey.Dwarf

open Decoder

/-- Where the value of an attribute begins. -/
structure AttributeSlot where
  spec : AttributeSpec
  offset : Nat
deriving DecidableEq, Inhabited

/-- An entry of a unit; one without an abbreviation ends a list of siblings. -/
structure Entry where
  /-- The place of the unit among the units of its file. -/
  unit : Nat
  offset : Nat
  /-- Just past the attributes: the first child, or the next sibling if there are no children. -/
  nextOffset : Nat
  abbreviation : Option Abbreviation
  slots : List AttributeSlot := []
  depth : Nat := 0
  name : Option String := none
  path : Option String := none
  line : UInt64 := 0
  column : UInt64 := 0
  /-- The lowest address of the entry, and the first past all of its addresses. -/
  pcRange : Option (UInt64 × UInt64) := none
  /-- The ranges that the entry's addresses come in, if it lists them. -/
  ranges : List (UInt64 × UInt64) := []
deriving DecidableEq, Inhabited

namespace Entry

/-- True of the entries that end a list of siblings. -/
def isTerminator (e : Entry) : Bool := e.abbreviation.isNone

/-- True of entries that are followed by their children. -/
def hasChildren (e : Entry) : Bool := e.abbreviation.any (·.hasChildren)

def slot? (e : Entry) (name : UInt64) : Option AttributeSlot :=
  e.slots.find? (·.spec.name == name)

/-- True if an entry has an attribute. -/
def has (e : Entry) (name : UInt64) : Bool := (e.slot? name).isSome

/-- True if an entry has an attribute. -/
def hasKnown (e : Entry) (known : KnownAttribute) : Bool := e.has known.code

def attr (u : DebugUnit) (e : Entry) (name : UInt64) : Except Fault Attribute :=
  match e.slot? name with
  | some slot => Attribute.ofSpec u slot.spec slot.offset
  | none => .error (.missingAttribute name)

/-- A reading of an attribute of an entry. -/
def value {α : Type} (u : DebugUnit) (e : Entry) (known : KnownAttribute)
    (reading : DebugUnit → Attribute → Except Fault α) : Except Fault α := do
  reading u (← e.attr u known.code)

/-- A reading of an attribute, if the entry has it and the reading succeeds. -/
def value? {α : Type} (u : DebugUnit) (e : Entry) (known : KnownAttribute)
    (reading : DebugUnit → Attribute → Except Fault α) : Option α :=
  (e.value u known reading).toOption

/-- True if an address is one of the entry's. -/
def containsAddress (e : Entry) (address : UInt64) : Bool :=
  if e.ranges ≠ [] then
    e.ranges.any fun (low, high) => low ≤ address && address < high
  else
    e.pcRange.any fun (low, high) => low ≤ address && address < high

/-- The slots of values that begin here. -/
def decodeSlots (version : Nat) : List AttributeSpec → Decoder (List AttributeSlot)
  | [] => return []
  | spec :: specs => do
    let offset ← position
    spec.form.skipValue version
    return { spec, offset } :: (← decodeSlots version specs)

def decode (u : DebugUnit) : Decoder Entry := do
  let offset ← position
  let code ← uleb128
  if code = 0 then
    return { unit := u.index, offset, nextOffset := ← position, abbreviation := none }
  let table ← ofExcept u.abbreviations
  let abbreviation ← ofExcept (table.get code)
  let slots ← decodeSlots u.header.version abbreviation.specs
  return { unit := u.index, offset, nextOffset := ← position, abbreviation, slots }

theorem progresses_decodeSlots (version : Nat) (specs : List AttributeSpec) :
    (decodeSlots version specs).Progresses := by
  induction specs with
  | nil => exact progresses_pure _
  | cons spec specs ih =>
    exact progresses_position.bind fun _ => (spec.form.progresses_skipValue version).bind fun _ =>
      ih.bind fun _ => progresses_pure _

theorem progresses_ofExcept {α : Type} (e : Except Fault α) :
    (ofExcept e : Decoder α).Progresses := by
  cases e
  · exact progresses_throw _
  · exact progresses_pure _

theorem decode_bounds {u : DebugUnit} {w : Window} {pos next : Nat} {e : Entry}
    (h : decode u w pos = .ok e next) :
    e.offset = pos ∧ e.nextOffset = next ∧ pos < next ∧ next ≤ w.limit := by
  obtain ⟨offset, p₁, h₁, h⟩ := bind_eq_ok h
  cases h₁
  obtain ⟨code, p₂, h₂, h⟩ := bind_eq_ok h
  have hcode := advances_uleb128 h₂
  split at h
  · obtain ⟨_, p₃, h₃, h⟩ := bind_eq_ok h
    cases h₃
    cases h
    exact ⟨rfl, rfl, hcode⟩
  · obtain ⟨_, p₃, h₃, h⟩ := bind_eq_ok h
    obtain ⟨_, p₄, h₄, h⟩ := bind_eq_ok h
    obtain ⟨_, p₅, h₅, h⟩ := bind_eq_ok h
    obtain ⟨_, p₆, h₆, h⟩ := bind_eq_ok h
    cases h₆
    cases h
    have := progresses_ofExcept _ h₃
    have := progresses_ofExcept _ h₄
    have := progresses_decodeSlots _ _ h₅
    exact ⟨rfl, rfl, by omega, by omega⟩

end Entry

/-- The entry of a unit at an offset, with none of its attributes decoded. -/
def DebugUnit.find (u : DebugUnit) (offset : Nat) : Except Fault Entry :=
  if u.containsOffset offset then u.decodeAt offset (Entry.decode u)
  else .error (.invalidOffset .info offset)

theorem DebugUnit.find_bounds {u : DebugUnit} {offset : Nat} {e : Entry}
    (h : u.find offset = .ok e) :
    e.offset = offset ∧ offset < e.nextOffset ∧ e.nextOffset ≤ u.window.limit
      ∧ u.header.rootOffset ≤ offset ∧ offset < u.region.stop := by
  unfold find at h
  split at h
  · rename_i hc
    unfold decodeAt at h
    split at h <;> cases h
    have := Entry.decode_bounds ‹_›
    simp only [containsOffset, Bool.and_eq_true, decide_eq_true_eq] at hc
    omega
  · cases h

namespace Entry

/-- Where the entry says that its next sibling begins, if that is further on in the unit. -/
def siblingTarget? (u : DebugUnit) (e : Entry) : Option Nat :=
  (e.value? u .sibling Attribute.localReference).filter (e.offset < ·)

theorem lt_of_siblingTarget? {u : DebugUnit} {e : Entry} {target : Nat}
    (h : e.siblingTarget? u = some target) : e.offset < target := by
  simpa using (Option.filter_eq_some_iff.1 h).2

end Entry

end StackSurvey.Dwarf
