import StackSurvey.Dwarf.Visit
import StackSurvey.PartitionPoint

namespace StackSurvey.Dwarf

open Decoder

theorem Decoder.le_of_unitLength {w : Window} {pos next : Nat} {format : Format} {size : Nat}
    (h : unitLength w pos = .ok (format, size) next) : 4 ≤ size := by
  obtain ⟨length, p₁, h₁, h⟩ := bind_eq_ok h
  split at h
  · cases h
    omega
  · split at h
    · obtain ⟨_, p₂, h₂, h⟩ := bind_eq_ok h
      cases h
      omega
    · cases h

theorem Decoder.advances_unit : unit.Advances := by
  intro w pos region next h
  obtain ⟨start, p₁, h₁, h⟩ := bind_eq_ok h
  obtain ⟨⟨format, size⟩, p₂, h₂, h⟩ := bind_eq_ok h
  obtain ⟨_, p₃, h₃, h⟩ := bind_eq_ok h
  obtain ⟨_, p₄, h₄, h⟩ := bind_eq_ok h
  obtain ⟨_, p₅, h₅, h⟩ := bind_eq_ok h
  cases h₁
  cases h₃
  cases h₅
  cases h
  have := le_of_unitLength h₂
  unfold skip at h₄
  split at h₄ <;> cases h₄
  omega

/-- The units of a file. -/
structure DebugInfo where
  sections : DebugSections
  units : Array DebugUnit

namespace DebugInfo

/-- The units from an offset of `.debug_info` on, after those found before. Units whose header
cannot be decoded are left out; where no unit begins the scan ends. -/
def scan (sections : DebugSections) (w : Window) (pos : Nat) (before : Array DebugUnit) :
    Array DebugUnit :=
  if pos < w.limit then
    match _h : unit w pos with
    | .error _ _ => before
    | .ok region next =>
      match DebugUnit.ofRegion before.size sections w.data region with
      | .ok u => scan sections w next (before.push u)
      | .error _ => scan sections w next before
  else
    before
termination_by w.limit - pos
decreasing_by
  all_goals
    have := advances_unit _h
    omega

/-- The debug information of a file, if it has any. -/
def ofSections (sections : DebugSections) (order : ByteOrder) : Except Fault DebugInfo :=
  match sections.info with
  | none => .error (.missingSection .info)
  | some info => .ok { sections, units := scan sections ⟨info, .whole info order⟩ 0 #[] }

/-- The last unit that begins at or before an offset. -/
def unitContaining? (d : DebugInfo) (offset : Nat) : Option DebugUnit :=
  match partitionPoint (·.offset ≤ offset) d.units with
  | 0 => none
  | i + 1 => d.units[i]?

end DebugInfo

/-- The place of an entry: the index of its unit and its offset. -/
structure EntryPlace where
  unit : Nat
  offset : Nat
deriving DecidableEq, Inhabited

/-- The entry that an attribute of a unit refers to, in any unit. -/
def Attribute.reference (d : DebugInfo) (u : DebugUnit) (a : Attribute) :
    Except Fault EntryPlace := do
  if a.form = .refAddr then
    let target := (← u.decodeAt a.offset
      (sized (unitReferenceSize u.region u.header.version))).toNat
    match d.unitContaining? target with
    | some other => return ⟨other.index, target⟩
    | none => throw (.invalidOffset .info target)
  else
    return ⟨u.index, ← a.localReference u⟩

/-- Debug information with what has been decoded of each unit so far. -/
structure Session where
  info : DebugInfo
  progress : Array Progress

namespace Session

/-- Debug information of which nothing has been decoded. -/
def start (info : DebugInfo) : Session := { info, progress := info.units.map fun _ => {} }

def visit {α : Type} (s : Session) (u : DebugUnit) (v : DebugUnit → Visit α) :
    Except Fault α × Session :=
  match v u (s.progress.getD u.index {}) with
  | .ok a p => (.ok a, { s with progress := s.progress.setIfInBounds u.index p })
  | .error fault p => (.error fault, { s with progress := s.progress.setIfInBounds u.index p })

/-- Visits all units in order, keeping the answers of the visits that succeed. -/
def visitAll {α : Type} (s : Session) (v : DebugUnit → Visit α) : List α × Session :=
  let (answers, s) := s.info.units.foldl
    (fun (answers, s) u =>
      match s.visit u v with
      | (.ok a, s) => (answers.push a, s)
      | (.error _, s) => (answers, s))
    ((#[], s) : Array α × Session)
  (answers.toList, s)

def entryAt (s : Session) (place : EntryPlace) (mode : ReadMode) : Except Fault Entry × Session :=
  match s.info.units[place.unit]? with
  | some u => s.visit u fun u => u.read u.resolver mode place.offset
  | none => (.error (.invalidOffset .info place.offset), s)

end Session

end StackSurvey.Dwarf
