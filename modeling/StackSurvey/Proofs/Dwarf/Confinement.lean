import Mathlib.Data.List.Chain
import StackSurvey.Proofs.Dwarf.Locality

namespace StackSurvey.Dwarf

open Decoder

namespace Decoder

variable {α β : Type} {d : Decoder α} {f : α → Decoder β} {w : Window} {pos mid : Nat}

/-- The position that an attempt leaves, failed or not. -/
def leftAt : EStateM.Result Fault Nat α → Nat
  | .ok _ next => next
  | .error _ next => next

/-- Every attempt from within the limit leaves a position further on, within the limit. -/
def Confined (d : Decoder α) : Prop :=
  ∀ ⦃w : Window⦄ ⦃pos : Nat⦄, pos ≤ w.limit → pos ≤ leftAt (d w pos) ∧ leftAt (d w pos) ≤ w.limit

theorem confined_of_stays {result : EStateM.Result Fault Nat α} (h : leftAt result = pos)
    (hpos : pos ≤ w.limit) : pos ≤ leftAt result ∧ leftAt result ≤ w.limit := by
  rw [h]
  exact ⟨Nat.le_refl pos, hpos⟩

theorem confined_pure (a : α) : (pure a : Decoder α).Confined := fun _ _ hpos =>
  confined_of_stays rfl hpos

theorem confined_throw (fault : Fault) : (throw fault : Decoder α).Confined := fun _ _ hpos =>
  confined_of_stays rfl hpos

theorem confined_region : region.Confined := fun _ _ hpos => confined_of_stays rfl hpos

theorem Confined.bind (hd : d.Confined) (hf : ∀ a, (f a).Confined) : (d >>= f).Confined := by
  intro w pos hpos
  obtain ⟨hle, hlimit⟩ := hd hpos
  cases hw : d w pos with
  | ok a mid =>
    rw [hw] at hle hlimit
    rw [bind_of_eq_ok f hw]
    obtain ⟨hle', hlimit'⟩ := hf a hlimit
    exact ⟨Nat.le_trans hle hle', hlimit'⟩
  | error fault mid =>
    rw [hw] at hle hlimit
    rw [bind_of_eq_error f hw]
    exact ⟨hle, hlimit⟩

theorem Confined.map (hd : d.Confined) (f : α → β) : (f <$> d).Confined :=
  hd.bind fun a => confined_pure (f a)

theorem confined_ensure (n : Nat) : (ensure n).Confined := by
  intro w pos hpos
  rw [ensure]
  split <;> exact confined_of_stays rfl hpos

theorem confined_skip (n : Nat) : (skip n).Confined := by
  intro w pos hpos
  rw [skip]
  split
  · exact ⟨Nat.le_add_right pos n, ‹_›⟩
  · exact confined_of_stays rfl hpos

theorem confined_byte : byte.Confined := by
  intro w pos hpos
  rw [byte]
  split
  · exact ⟨Nat.le_succ pos, ‹_›⟩
  · exact confined_of_stays rfl hpos

theorem confined_bytes (n : Nat) : (bytes n).Confined := by
  intro w pos hpos
  rw [bytes]
  split
  · exact ⟨Nat.le_add_right pos n, ‹_›⟩
  · exact confined_of_stays rfl hpos

theorem confined_unsigned (width : Nat) : (unsigned width).Confined :=
  confined_region.bind fun _ => (confined_bytes width).map _

theorem confined_signed (width : Nat) : (signed width).Confined := (confined_unsigned width).map _

theorem confined_sized (width : Nat) : (sized width).Confined := by
  unfold sized
  split
  · exact confined_throw _
  · exact (confined_unsigned width).map _

theorem confined_offset : offset.Confined := confined_region.bind fun _ => confined_sized _

theorem confined_address : address.Confined := by
  apply confined_region.bind
  intro r
  dsimp only
  split
  · exact confined_sized _
  · exact confined_throw _

/-- A group that is cut off is consumed up to the limit. -/
theorem confined_leb128 : leb128.Confined := by
  intro w pos hpos
  rw [leb128]
  split
  · have hbounds := Window.find?_bounds ‹_›
    exact ⟨Nat.le_succ_of_le hbounds.1, hbounds.2⟩
  · exact ⟨Nat.le_max_left .., Nat.max_le.2 ⟨hpos, Nat.le_refl _⟩⟩

theorem confined_uleb128 : uleb128.Confined := confined_leb128.map _

theorem confined_sleb128 : sleb128.Confined := confined_leb128.map _

theorem confined_terminated : terminated.Confined := by
  intro w pos hpos
  rw [terminated]
  split
  · have hbounds := Window.find?_bounds ‹_›
    exact ⟨Nat.le_succ_of_le hbounds.1, hbounds.2⟩
  · exact confined_of_stays rfl hpos

theorem confined_text : text.Confined := confined_terminated.map _

theorem confined_skipLength : skipLength.Confined := confined_region.bind fun _ => confined_skip _

theorem confined_unitLength : unitLength.Confined := by
  apply (confined_unsigned 4).bind
  intro length
  split
  · exact confined_pure _
  · split
    · exact (confined_unsigned 8).map _
    · exact confined_throw _

/-- A length that cannot be read leaves the position where reading it failed. One that is read is
taken back, and the unit passed over from its beginning. -/
theorem confined_unit : unit.Confined := by
  intro w pos hpos
  cases hw : unitLength w pos with
  | ok length mid =>
    obtain ⟨format, size⟩ := length
    rw [unit_of_length hw]
    apply (confined_skip size).bind _ hpos
    intro _
    exact confined_region.bind fun _ => confined_pure _
  | error fault mid =>
    have hlength := confined_unitLength hpos
    rw [hw] at hlength
    rw [unit_of_error hw]
    exact hlength

end Decoder

theorem Extent.confined_skip (version : Nat) (extent : Extent) :
    (extent.skip version).Confined := by
  cases extent with
  | elsewhere => exact confined_pure _
  | fixed => exact Decoder.confined_skip _
  | address =>
    apply confined_region.bind
    intro r
    split
    · exact Decoder.confined_skip _
    · exact confined_throw _
  | offset => exact confined_region.bind fun _ => Decoder.confined_skip _
  | unitReference => exact confined_region.bind fun _ => Decoder.confined_skip _
  | signedGroup => exact confined_sleb128.map _
  | unsignedGroup => exact confined_uleb128.map _
  | counted width => exact (confined_unsigned width).bind fun _ => Decoder.confined_skip _
  | groupCounted => exact confined_uleb128.bind fun _ => Decoder.confined_skip _
  | terminated => exact confined_terminated.map _
  | unknown => exact confined_throw _

namespace Form

/-- Forms that cannot be followed leave the position behind those that were. -/
theorem confined_follow (form : Form) : form.follow.Confined := by
  intro w pos hpos
  induction form, pos using follow.induct w with
  | case1 pos code mid hcode ih =>
    have hgroup := confined_uleb128 hpos
    rw [hcode] at hgroup
    rw [follow_indirect, bind_of_eq_ok _ hcode]
    obtain ⟨hle, hlimit⟩ := ih hgroup.2
    exact ⟨Nat.le_trans hgroup.1 hle, hlimit⟩
  | case2 pos fault mid hcode =>
    have hgroup := confined_uleb128 hpos
    rw [hcode] at hgroup
    rw [follow_indirect, bind_of_eq_error _ hcode]
    exact hgroup
  | case3 form pos hform =>
    rw [follow_of_ne hform]
    exact confined_of_stays rfl hpos

theorem confined_skipValue (form : Form) (version : Nat) : (form.skipValue version).Confined :=
  (confined_follow form).bind fun form => form.extent.confined_skip version

end Form

/-- An access to a window at a position: a read, or a move forward. -/
inductive Access where
  | byte
  | unsigned (width : Nat)
  | signed (width : Nat)
  | sized (width : Nat)
  | offset
  | address
  | unsignedGroup
  | signedGroup
  | bytes (n : Nat)
  | terminated
  | text
  | skip (n : Nat)
  | ensure (n : Nat)
  | skipLength
  | unit
  | skipValue (form : Form) (version : Nat)
deriving DecidableEq

namespace Access

/-- What an access answers with. -/
def Answer : Access → Type
  | byte => UInt8
  | unsigned _ => Nat
  | signed _ => Int
  | sized _ | offset | address | unsignedGroup => UInt64
  | signedGroup => Int64
  | bytes _ | terminated => List UInt8
  | text => String
  | unit => Region
  | skip _ | ensure _ | skipLength | skipValue _ _ => Unit

def decoder : (a : Access) → Decoder a.Answer
  | byte => Decoder.byte
  | unsigned width => Decoder.unsigned width
  | signed width => Decoder.signed width
  | sized width => Decoder.sized width
  | offset => Decoder.offset
  | address => Decoder.address
  | unsignedGroup => uleb128
  | signedGroup => sleb128
  | bytes n => Decoder.bytes n
  | terminated => Decoder.terminated
  | text => Decoder.text
  | skip n => Decoder.skip n
  | ensure n => Decoder.ensure n
  | skipLength => Decoder.skipLength
  | unit => Decoder.unit
  | skipValue form version => form.skipValue version

theorem local_decoder (a : Access) : a.decoder.Local := by
  cases a with
  | byte => exact local_byte
  | unsigned width => exact local_unsigned width
  | signed width => exact local_signed width
  | sized width => exact local_sized width
  | offset => exact local_offset
  | address => exact local_address
  | unsignedGroup => exact local_uleb128
  | signedGroup => exact local_sleb128
  | bytes n => exact local_bytes n
  | terminated => exact local_terminated
  | text => exact local_text
  | skip n => exact Decoder.local_skip n
  | ensure n => exact local_ensure n
  | skipLength => exact local_skipLength
  | unit => exact local_unit
  | skipValue form version => exact form.local_skipValue version

theorem confined_decoder (a : Access) : a.decoder.Confined := by
  cases a with
  | byte => exact confined_byte
  | unsigned width => exact confined_unsigned width
  | signed width => exact confined_signed width
  | sized width => exact confined_sized width
  | offset => exact confined_offset
  | address => exact confined_address
  | unsignedGroup => exact confined_uleb128
  | signedGroup => exact confined_sleb128
  | bytes n => exact confined_bytes n
  | terminated => exact confined_terminated
  | text => exact confined_text
  | skip n => exact Decoder.confined_skip n
  | ensure n => exact confined_ensure n
  | skipLength => exact confined_skipLength
  | unit => exact confined_unit
  | skipValue form version => exact form.confined_skipValue version

/-- What comes of an access: its answer or its fault, and the position that it leaves. -/
abbrev Outcome : Type := Σ a : Access, EStateM.Result Fault Nat a.Answer

def Outcome.position (o : Outcome) : Nat := leftAt o.2

/-- The outcomes of accesses that follow each other. Each begins where the one before left the
position, also if that one failed. -/
def trace (w : Window) : Nat → List Access → List Outcome
  | _, [] => []
  | pos, a :: accesses => ⟨a, a.decoder w pos⟩ :: trace w (leftAt (a.decoder w pos)) accesses

theorem trace_eq_of_agrees {w v : Window} {pos : Nat} (h : w.Agrees v pos) (hpos : pos ≤ w.limit)
    (accesses : List Access) : trace w pos accesses = trace v pos accesses := by
  induction accesses generalizing pos with
  | nil => rfl
  | cons a accesses ih =>
    obtain ⟨hle, hlimit⟩ := a.confined_decoder hpos
    have hrest := ih (h.mono hle) hlimit
    rw [trace, trace, ← a.local_decoder h, hrest]

theorem isChain_positions {w : Window} {pos : Nat} (hpos : pos ≤ w.limit)
    (accesses : List Access) :
    (pos :: (trace w pos accesses).map Outcome.position).IsChain (· ≤ ·) := by
  induction accesses generalizing pos with
  | nil => exact List.isChain_singleton pos
  | cons a accesses ih =>
    obtain ⟨hle, hlimit⟩ := a.confined_decoder hpos
    exact List.isChain_cons_cons.2 ⟨hle, ih hlimit⟩

theorem position_le_limit {w : Window} {pos : Nat} (hpos : pos ≤ w.limit)
    (accesses : List Access) : ∀ o ∈ trace w pos accesses, o.position ≤ w.limit := by
  induction accesses generalizing pos with
  | nil => exact List.forall_mem_nil _
  | cons a accesses ih =>
    have hlimit := (a.confined_decoder hpos).2
    exact List.forall_mem_cons.2 ⟨hlimit, ih hlimit⟩

/-- Accesses to two buffers that agree from a position up to the limit have the same outcomes, and
their positions never go back and never pass the limit. -/
theorem trace_confined {data data' : ByteArray} {r : Region} {pos : Nat}
    (h : Window.Agrees ⟨data, r⟩ ⟨data', r⟩ pos) (hpos : pos ≤ (Window.mk data r).limit)
    (accesses : List Access) :
    trace ⟨data, r⟩ pos accesses = trace ⟨data', r⟩ pos accesses ∧
      (pos :: (trace ⟨data, r⟩ pos accesses).map Outcome.position).IsChain (· ≤ ·) ∧
      ∀ o ∈ trace ⟨data, r⟩ pos accesses, o.position ≤ (Window.mk data r).limit :=
  ⟨trace_eq_of_agrees h hpos accesses, isChain_positions hpos accesses,
    position_le_limit hpos accesses⟩

/-- A region with a byte before it, a unit of three bytes and a group that is cut off. -/
def cutGroup (before : UInt8) (behind : List UInt8) : ByteArray :=
  ⟨([before, 3, 0, 0, 0, 1, 2, 3, 0x80, 0x80] ++ behind).toArray⟩

def cutGroupRegion : Region := { start := 1, stop := 10, order := .little }

theorem agrees_cutGroup :
    Window.Agrees ⟨cutGroup 0xaa [], cutGroupRegion⟩ ⟨cutGroup 0xbb [0, 0], cutGroupRegion⟩ 1 where
  region_eq := rfl
  limit_eq := rfl
  getElem_eq := by decide

theorem trace_confined_cutGroup :
    let accesses := [unit, text, unit, unsignedGroup, skipValue .indirect 4]
    let w : Window := ⟨cutGroup 0xaa [], cutGroupRegion⟩
    w.Agrees ⟨cutGroup 0xbb [0, 0], cutGroupRegion⟩ 1 ∧ 1 ≤ w.limit ∧
      trace w 1 accesses = trace ⟨cutGroup 0xbb [0, 0], cutGroupRegion⟩ 1 accesses ∧
      (1 :: (trace w 1 accesses).map Outcome.position).IsChain (· ≤ ·) ∧
      ∀ o ∈ trace w 1 accesses, o.position ≤ 10 :=
  ⟨agrees_cutGroup, by decide, trace_confined agrees_cutGroup (by decide) _⟩

end Access

end StackSurvey.Dwarf
