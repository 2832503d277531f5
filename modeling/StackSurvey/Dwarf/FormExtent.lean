import StackSurvey.Dwarf.Decoder

namespace StackSurvey.Dwarf

open Decoder

/-- What decides the size of a value. -/
inductive Extent where
  /-- The value is not among the bytes of the entry. -/
  | elsewhere
  | fixed (size : Nat)
  /-- The address size of the unit. -/
  | address
  /-- The width of section offsets in the unit. -/
  | offset
  /-- A reference into any unit: DWARF 2 wrote it as an address, later versions as an offset. -/
  | unitReference
  | signedGroup
  | unsignedGroup
  /-- A count of `width` bytes, and as many bytes as it says. -/
  | counted (width : Nat)
  /-- An unsigned group, and as many bytes as it says. -/
  | groupCounted
  /-- Bytes up to a zero byte. -/
  | terminated
  /-- Nothing is known of values with this form code. -/
  | unknown (code : UInt64)
deriving DecidableEq, Inhabited

/-- Bytes in a reference into any unit. -/
def unitReferenceSize (region : Region) (version : Nat) : Nat :=
  if version ≤ 2 then region.addressSize else region.format.offsetSize

/-- Moves past a value in a unit of some version. -/
def Extent.skip (version : Nat) : Extent → Decoder Unit
  | elsewhere => pure ()
  | fixed size => Decoder.skip size
  | address => do
    let r ← region
    if isAddressSize r.addressSize then Decoder.skip r.addressSize
    else throw (.unsupportedAddressSize r.addressSize)
  | offset => do Decoder.skip (← region).format.offsetSize
  | unitReference => do Decoder.skip (unitReferenceSize (← region) version)
  | signedGroup => do let _ ← sleb128
  | unsignedGroup => do let _ ← uleb128
  | counted width => do Decoder.skip (← unsigned width)
  | groupCounted => do Decoder.skip (← uleb128).toNat
  | terminated => do let _ ← Decoder.terminated
  | unknown code => throw (.unknownForm code)

theorem Extent.progresses_skip (version : Nat) (extent : Extent) :
    (extent.skip version).Progresses := by
  cases extent with
  | elsewhere => exact progresses_pure _
  | fixed => exact Decoder.progresses_skip _
  | address =>
    refine progresses_region.bind fun r => ?_
    split
    · exact Decoder.progresses_skip _
    · exact progresses_throw _
  | offset => exact progresses_region.bind fun _ => Decoder.progresses_skip _
  | unitReference => exact progresses_region.bind fun _ => Decoder.progresses_skip _
  | signedGroup => exact advances_sleb128.progresses.bind fun _ => progresses_pure _
  | unsignedGroup => exact advances_uleb128.progresses.bind fun _ => progresses_pure _
  | counted width => exact (progresses_unsigned width).bind fun _ => Decoder.progresses_skip _
  | groupCounted => exact advances_uleb128.progresses.bind fun _ => Decoder.progresses_skip _
  | terminated => exact advances_terminated.progresses.bind fun _ => progresses_pure _
  | unknown => exact progresses_throw _

namespace Form

/-- The extent of a value once indirections have been followed. -/
def extent : Form → Extent
  | flagPresent | implicitConst | indirect => .elsewhere
  | addr => .address
  | data1 | ref1 | flag | strx1 | addrx1 => .fixed 1
  | data2 | ref2 | strx2 | addrx2 => .fixed 2
  | strx3 | addrx3 => .fixed 3
  | data4 | ref4 | refSup4 | strx4 | addrx4 => .fixed 4
  | data8 | ref8 | refSig8 | refSup8 => .fixed 8
  | data16 => .fixed 16
  | strp | lineStrp | strpSup | secOffset => .offset
  | refAddr => .unitReference
  | sdata => .signedGroup
  | udata | refUdata | strx | addrx | loclistx | rnglistx => .unsignedGroup
  | block1 => .counted 1
  | block2 => .counted 2
  | block4 => .counted 4
  | block | exprloc => .groupCounted
  | string => .terminated
  | unknown code => .unknown code

/-- Follows indirections: as long as the form says that the value begins with its own form, that
form is read. -/
def follow (form : Form) : Decoder Form := fun w pos =>
  if form = indirect then
    match _h : uleb128 w pos with
    | .ok code next => (ofCode code).follow w next
    | .error e next => .error e next
  else
    .ok form pos
termination_by w pos => w.limit - pos
decreasing_by
  have := advances_uleb128 _h
  omega

theorem progresses_follow (form : Form) : form.follow.Progresses := by
  intro w pos f next h
  induction form, pos using follow.induct w with
  | case1 pos code mid hc ih =>
    unfold follow at h
    simp only [if_true] at h
    split at h
    · rename_i hc'
      rw [hc] at hc'
      cases hc'
      have := ih h
      have := advances_uleb128 hc
      omega
    · cases h
  | case2 pos e mid hc =>
    unfold follow at h
    simp only [if_true] at h
    split at h
    · rename_i hc'
      rw [hc] at hc'
      cases hc'
    · cases h
  | case3 form pos hf =>
    unfold follow at h
    simp only [hf, if_false] at h
    cases h
    omega

def skipValue (form : Form) (version : Nat) : Decoder Unit := do
  (← form.follow).extent.skip version

theorem progresses_skipValue (form : Form) (version : Nat) :
    (form.skipValue version).Progresses :=
  (progresses_follow form).bind fun f => f.extent.progresses_skip version

end Form

end StackSurvey.Dwarf
