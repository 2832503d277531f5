import StackSurvey.Proofs.Dwarf.Locality
import StackSurvey.Proofs.Dwarf.UnitOrder
import StackSurvey.Proofs.Dwarf.ValueExtent

namespace StackSurvey.Dwarf

open Decoder

namespace Window

variable {w v : Window} {pos k n : Nat}

/-- Two buffers of one size hold the same bytes before a position. -/
structure SharesBelow (w v : Window) (k : Nat) : Prop where
  region_eq : v.region = w.region
  size_eq : v.data.size = w.data.size
  getElem_eq : ∀ i (hw : i < w.data.size) (hv : i < v.data.size), i < k → v.data[i] = w.data[i]

namespace SharesBelow

theorem symm (h : w.SharesBelow v k) : v.SharesBelow w k :=
  ⟨h.region_eq.symm, h.size_eq.symm, fun i hv hw hi => (h.getElem_eq i hw hv hi).symm⟩

theorem limit_eq (h : w.SharesBelow v k) : v.limit = w.limit := by
  rw [limit, limit, h.region_eq, h.size_eq]

/-- Cut off at the position, the buffers agree. -/
theorem agrees_cut (h : w.SharesBelow v k) (pos : Nat) :
    Agrees ⟨w.data, { w.region with stop := k }⟩ ⟨v.data, { w.region with stop := k }⟩ pos where
  region_eq := rfl
  limit_eq := congrArg (min k) h.size_eq.symm
  getElem_eq i hw hv _ hi :=
    (h.getElem_eq i hw hv (Nat.lt_of_lt_of_le hi (Nat.min_le_left ..))).symm

theorem slice_eq (h : w.SharesBelow v k) (hk : pos + n ≤ k) (hlimit : pos + n ≤ w.limit) :
    v.slice pos n = w.slice pos n :=
  ((h.agrees_cut pos).slice_eq
    (Nat.le_min.2 ⟨hk, Nat.le_trans hlimit (Nat.min_le_right ..)⟩)).symm

theorem holds_slice (h : w.SharesBelow v k) (hk : pos + n ≤ k) (hlimit : pos + n ≤ w.limit) :
    v.Holds pos (w.slice pos n) := by
  have hlength := length_slice hlimit
  refine ⟨?_, ?_⟩
  · rw [hlength, h.limit_eq]
    exact hlimit
  · rw [hlength, h.slice_eq hk hlimit]

theorem holds (h : w.SharesBelow v k) {bytes : List UInt8} (hw : w.Holds pos bytes)
    (hk : pos + bytes.length ≤ k) : v.Holds pos bytes := by
  have hslice := h.holds_slice hk hw.le_limit
  rwa [hw.slice_eq] at hslice

/-- What agrees in whole buffers agrees in every region of them. -/
theorem inRegion (h : w.SharesBelow v k) (r : Region) :
    SharesBelow ⟨w.data, r⟩ ⟨v.data, r⟩ k :=
  ⟨rfl, h.size_eq, h.getElem_eq⟩

end SharesBelow

end Window

namespace Decoder

variable {α β γ δ : Type} {d : Decoder α} {s : Decoder γ} {f : α → Decoder β}

/-- Where one decoder moves past bytes, the other makes the same of all buffers that hold them. -/
structure SettledBy (d : Decoder α) (s : Decoder γ) : Prop where
  progresses : s.Progresses
  eq : ∀ ⦃w v : Window⦄ ⦃k pos next : Nat⦄ ⦃c : γ⦄, w.SharesBelow v k → pos ≤ w.limit →
    s w pos = .ok c next → next ≤ k → d v pos = d w pos

/-- A success is the same in all buffers that hold the bytes. -/
theorem SettledBy.eq_ok (h : d.SettledBy d) {w v : Window} {k pos next : Nat} {a : α}
    (hshares : w.SharesBelow v k) (hpos : pos ≤ w.limit) (hd : d w pos = .ok a next)
    (hk : next ≤ k) : d v pos = .ok a next :=
  (h.eq hshares hpos hd hk).trans hd

theorem Exact.settledBy (hd : d.Exact) (hprogress : d.Progresses) : d.SettledBy d where
  progresses := hprogress
  eq w v k pos next a hshares hpos h hk := by
    obtain ⟨hle, hlimit⟩ := hprogress h
    have hadd : pos + (next - pos) = next := Nat.add_sub_cancel' hle
    have hholds : v.Holds pos (w.slice pos (next - pos)) :=
      hshares.holds_slice (hadd.symm ▸ hk) (hadd.symm ▸ hlimit hpos)
    exact (hd.of_holds_slice hpos h (Nat.le_refl next) hholds hshares.region_eq).trans h.symm

theorem settledBy_pure (a : α) (hs : s.Progresses) : (pure a : Decoder α).SettledBy s :=
  ⟨hs, fun _ _ _ _ _ _ _ _ _ _ => rfl⟩

theorem settledBy_throw (fault : Fault) (hs : s.Progresses) :
    (throw fault : Decoder α).SettledBy s :=
  ⟨hs, fun _ _ _ _ _ _ _ _ _ _ => rfl⟩

theorem settledBy_position (hs : s.Progresses) : position.SettledBy s :=
  ⟨hs, fun _ _ _ _ _ _ _ _ _ _ => rfl⟩

theorem settledBy_ofExcept (e : Except Fault α) : (ofExcept e : Decoder α).SettledBy (ofExcept e) :=
  (exact_ofExcept e).settledBy (Entry.progresses_ofExcept e)

theorem settledBy_throw_bind (fault : Fault) (f : α → Decoder β) :
    (throw fault >>= f).SettledBy (throw fault >>= f) where
  progresses w pos b next h := by cases h
  eq w v k pos next b _ _ h _ := by cases h

/-- Whether there are bytes enough to skip does not depend on what they are. -/
theorem settledBy_skip (n : Nat) (hs : s.Progresses) : (skip n).SettledBy s where
  progresses := hs
  eq w v k pos next c hshares _ _ _ := by
    rw [skip, skip, Window.remaining, Window.remaining, hshares.limit_eq]

theorem SettledBy.bind {g : α → Decoder δ} (hd : d.SettledBy d)
    (hf : ∀ a, (f a).SettledBy (g a)) : (d >>= f).SettledBy (d >>= g) where
  progresses := hd.progresses.bind fun a => (hf a).progresses
  eq w v k pos next c hshares hpos h hk := by
    obtain ⟨a, mid, hfirst, hsecond⟩ := bind_eq_ok h
    obtain ⟨hle, -⟩ := (hf a).progresses hsecond
    have hmid := (hd.progresses hfirst).2 hpos
    have hfirst' := hd.eq_ok hshares hpos hfirst (Nat.le_trans hle hk)
    rw [bind_of_eq_ok f hfirst, bind_of_eq_ok f hfirst']
    exact (hf a).eq hshares hmid hsecond hk

theorem SettledBy.regions {f : Region → Decoder β} {g : Region → Decoder δ}
    (hf : ∀ r, (f r).SettledBy (g r)) : (region >>= f).SettledBy (region >>= g) :=
  (exact_region.settledBy progresses_region).bind hf

theorem SettledBy.region {f : Region → Decoder β} (hf : ∀ r, (f r).SettledBy s) :
    (region >>= f).SettledBy s where
  progresses := (hf default).progresses
  eq w v k pos next c hshares hpos hs hk := by
    change f v.region v pos = f w.region w pos
    rw [hshares.region_eq]
    exact (hf w.region).eq hshares hpos hs hk

theorem SettledBy.map (h : d.SettledBy s) (g : α → β) : (g <$> d).SettledBy s where
  progresses := h.progresses
  eq w v k pos next c hshares hpos hs hk := by
    have hsame := h.eq hshares hpos hs hk
    change (d >>= fun a => pure (g a)) v pos = (d >>= fun a => pure (g a)) w pos
    cases hd : d w pos with
    | ok a mid => rw [bind_of_eq_ok _ hd, bind_of_eq_ok _ (hsame.trans hd)]; rfl
    | error fault mid => rw [bind_of_eq_error _ hd, bind_of_eq_error _ (hsame.trans hd)]

theorem SettledBy.ignored (h : d.SettledBy d) : d.SettledBy (d >>= fun _ => pure ()) where
  progresses := h.progresses.bind fun _ => progresses_pure _
  eq w v k pos next c hshares hpos hs hk := by
    obtain ⟨a, mid, hd, hs⟩ := bind_eq_ok hs
    cases hs
    exact h.eq hshares hpos hd hk

theorem settledBy_bytes (n : Nat) : (bytes n).SettledBy (skip n) where
  progresses := progresses_skip n
  eq w v k pos next c hshares _ hs hk := by
    rw [skip] at hs
    split at hs
    · rename_i hle
      cases hs
      rw [bytes, bytes, if_pos hle, if_pos (hshares.limit_eq ▸ hle), hshares.slice_eq hk hle]
    · cases hs

theorem settledBy_unsigned (width : Nat) : (unsigned width).SettledBy (skip width) :=
  .region fun _ => (settledBy_bytes width).map _

theorem settledBy_sized (width : Nat) : (sized width).SettledBy (skip width) := by
  unfold sized
  split
  · exact settledBy_throw _ (progresses_skip width)
  · exact (settledBy_unsigned width).map _

theorem settledBy_offset (version : Nat) : offset.SettledBy (Extent.offset.skip version) :=
  .regions fun _ => settledBy_sized _

theorem settledBy_address (version : Nat) : address.SettledBy (Extent.address.skip version) := by
  apply SettledBy.regions
  intro r
  dsimp only
  split
  · exact settledBy_sized _
  · exact settledBy_throw _ (progresses_throw _)

theorem settledBy_uleb128 : uleb128.SettledBy uleb128 :=
  exact_uleb128.settledBy advances_uleb128.progresses

theorem settledBy_counted (width : Nat) :
    (unsigned width >>= bytes).SettledBy (unsigned width >>= skip) :=
  ((exact_unsigned width).settledBy (progresses_unsigned width)).bind settledBy_bytes

end Decoder

theorem Extent.settledBy_skip (version : Nat) (extent : Extent) :
    (extent.skip version).SettledBy (extent.skip version) := by
  have hskip (n : Nat) : (Decoder.skip n).SettledBy (Decoder.skip n) :=
    Decoder.settledBy_skip n (Decoder.progresses_skip n)
  have hend (a : Unit) : (pure a : Decoder Unit).SettledBy (pure a) :=
    settledBy_pure a (progresses_pure a)
  cases extent with
  | elsewhere => exact hend ()
  | fixed size => exact hskip size
  | address =>
    refine .regions fun r => ?_
    split
    · exact hskip _
    · exact settledBy_throw _ (progresses_throw _)
  | offset => exact .regions fun _ => hskip _
  | unitReference => exact .regions fun _ => hskip _
  | signedGroup => exact (exact_sleb128.settledBy advances_sleb128.progresses).bind fun _ => hend ()
  | unsignedGroup => exact settledBy_uleb128.bind fun _ => hend ()
  | counted width =>
    exact ((exact_unsigned width).settledBy (progresses_unsigned width)).bind hskip
  | groupCounted => exact settledBy_uleb128.bind fun _ => hskip _
  | terminated =>
    exact (exact_terminated.settledBy advances_terminated.progresses).bind fun _ => hend ()
  | unknown code => exact settledBy_throw _ (progresses_throw _)

namespace Form

theorem settledBy_follow (form : Form) : form.follow.SettledBy form.follow :=
  form.exact_follow.settledBy form.progresses_follow

theorem settledBy_skipValue (form : Form) (version : Nat) :
    (form.skipValue version).SettledBy (form.skipValue version) :=
  form.settledBy_follow.bind fun form => form.extent.settledBy_skip version

end Form

namespace Entry

theorem settledBy_decodeSlots (version : Nat) (specs : List AttributeSpec) :
    (decodeSlots version specs).SettledBy (decodeSlots version specs) := by
  induction specs with
  | nil => exact settledBy_pure _ (progresses_pure _)
  | cons spec specs ih =>
    apply (settledBy_position progresses_position).bind
    intro offset
    apply (spec.form.settledBy_skipValue version).bind
    intro _
    exact ih.bind fun _ => settledBy_pure _ (progresses_pure _)

theorem settledBy_decode (u : DebugUnit) : (decode u).SettledBy (decode u) := by
  have hposition : position.SettledBy position := settledBy_position progresses_position
  apply hposition.bind
  intro offset
  apply settledBy_uleb128.bind
  intro code
  split
  · exact hposition.bind fun _ => settledBy_pure _ (progresses_pure _)
  · apply (settledBy_ofExcept _).bind
    intro table
    apply (settledBy_ofExcept _).bind
    intro abbreviation
    apply (settledBy_decodeSlots _ _).bind
    intro slots
    exact hposition.bind fun _ => settledBy_pure _ (progresses_pure _)

end Entry

namespace UnitHeader

theorem settledBy_skipExtras (unitType : Nat) :
    (skipExtras unitType).SettledBy (skipExtras unitType) := by
  have hskip (n : Nat) : (skip n).SettledBy (skip n) := settledBy_skip n (progresses_skip n)
  unfold skipExtras
  split
  · exact hskip 8
  · split
    · exact (hskip 8).bind fun _ => (exact_offset.settledBy advances_offset.progresses).bind
        fun _ => settledBy_pure _ (progresses_pure _)
    · exact settledBy_pure _ (progresses_pure _)

theorem settledBy_root (version unitType addressSize : Nat) (abbreviationOffset : UInt64) :
    let root : Decoder UnitHeader := do
      return { version, unitType, addressSize, abbreviationOffset, rootOffset := ← position }
    root.SettledBy root :=
  (settledBy_position progresses_position).bind fun _ => settledBy_pure _ (progresses_pure _)

theorem settledBy_decode : decode.SettledBy decode := by
  have hunsigned (width : Nat) : (unsigned width).SettledBy (unsigned width) :=
    (exact_unsigned width).settledBy (progresses_unsigned width)
  have hoffset : offset.SettledBy offset := exact_offset.settledBy advances_offset.progresses
  have hlength : skipLength.SettledBy skipLength :=
    .regions fun _ => settledBy_skip _ (progresses_skip _)
  refine hlength.bind fun _ => (hunsigned 2).bind fun version => ?_
  dsimp only
  split
  · exact settledBy_throw_bind ..
  · split
    · refine (hunsigned 1).bind fun unitType => (hunsigned 1).bind fun addressSize => ?_
      refine hoffset.bind fun abbreviationOffset => ?_
      refine (settledBy_skipExtras unitType).bind fun _ => ?_
      refine (settledBy_pure _ (progresses_pure _)).bind fun fields => ?_
      split
      · exact settledBy_throw_bind ..
      · exact settledBy_root ..
    · refine hoffset.bind fun abbreviationOffset => (hunsigned 1).bind fun addressSize => ?_
      refine (settledBy_pure _ (progresses_pure _)).bind fun fields => ?_
      split
      · exact settledBy_throw_bind ..
      · exact settledBy_root ..

end UnitHeader

end StackSurvey.Dwarf
