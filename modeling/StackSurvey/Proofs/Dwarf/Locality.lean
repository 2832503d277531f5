import StackSurvey.Proofs.Dwarf.ValueBytes

namespace StackSurvey.Dwarf

open Decoder

namespace Window

variable {w v : Window} {pos next : Nat}

/-- Two buffers hold the same bytes between a position and the limit that a region sets in both. -/
structure Agrees (w v : Window) (pos : Nat) : Prop where
  region_eq : w.region = v.region
  limit_eq : w.limit = v.limit
  getElem_eq : ∀ i (hw : i < w.data.size) (hv : i < v.data.size), pos ≤ i → i < w.limit →
    w.data[i] = v.data[i]

theorem Agrees.mono (h : w.Agrees v pos) (hle : pos ≤ next) : w.Agrees v next := by
  refine ⟨h.region_eq, h.limit_eq, ?_⟩
  intro i hw hv hi hlimit
  exact h.getElem_eq i hw hv (Nat.le_trans hle hi) hlimit

theorem Agrees.remaining_eq (h : w.Agrees v pos) : w.remaining pos = v.remaining pos := by
  rw [remaining, remaining, h.limit_eq]

theorem getElem_slice {n i : Nat} (hi : i < (w.slice pos n).length)
    (hsize : pos + i < w.data.size) : (w.slice pos n)[i] = w.data[pos + i] := by
  simp only [slice_eq_take, List.getElem_take, List.getElem_drop, Array.getElem_toList]
  rfl

theorem Agrees.slice_eq (h : w.Agrees v pos) {n : Nat} (hle : pos + n ≤ w.limit) :
    w.slice pos n = v.slice pos n := by
  have hle' : pos + n ≤ v.limit := h.limit_eq ▸ hle
  have hlength := length_slice hle
  apply List.ext_getElem (hlength.trans (length_slice hle').symm)
  intro i hi hi'
  have hlt : pos + i < w.limit := by omega
  have hlt' : pos + i < v.limit := h.limit_eq ▸ hlt
  rw [getElem_slice hi (lt_size_of_lt_limit hlt), getElem_slice hi' (lt_size_of_lt_limit hlt')]
  exact h.getElem_eq (pos + i) _ _ (Nat.le_add_right pos i) hlt

/-- A search in either buffer stops at the same byte. -/
theorem Agrees.find?_eq (h : w.Agrees v pos) (p : UInt8 → Bool) :
    w.find? p pos = v.find? p pos := by
  induction pos using find?.induct w p with
  | case1 pos hlt _ hp =>
    have hlt' : pos < v.limit := h.limit_eq ▸ hlt
    have hsize := lt_size_of_lt_limit hlt
    have hsize' := lt_size_of_lt_limit hlt'
    rw [find?_of_lt p hlt hsize, find?_of_lt p hlt' hsize',
      ← h.getElem_eq pos hsize hsize' (Nat.le_refl pos) hlt, if_pos hp, if_pos hp]
  | case2 pos hlt _ hp ih =>
    have hlt' : pos < v.limit := h.limit_eq ▸ hlt
    have hsize := lt_size_of_lt_limit hlt
    have hsize' := lt_size_of_lt_limit hlt'
    rw [find?_of_lt p hlt hsize, find?_of_lt p hlt' hsize',
      ← h.getElem_eq pos hsize hsize' (Nat.le_refl pos) hlt, if_neg hp, if_neg hp]
    exact ih (h.mono (Nat.le_succ pos))
  | case3 pos hlt => rw [find?_of_not_lt p hlt, find?_of_not_lt p (h.limit_eq ▸ hlt)]

end Window

namespace Decoder

variable {α β : Type} {d : Decoder α} {f : α → Decoder β}

/-- The decoder makes the same of two windows that agree from the position on. -/
def Local (d : Decoder α) : Prop :=
  ∀ ⦃w v : Window⦄ ⦃pos : Nat⦄, w.Agrees v pos → d w pos = d v pos

theorem local_pure (a : α) : (pure a : Decoder α).Local := fun _ _ _ _ => rfl

theorem local_throw (fault : Fault) : (throw fault : Decoder α).Local := fun _ _ _ _ => rfl

theorem local_position : position.Local := fun _ _ _ _ => rfl

theorem local_ofExcept (e : Except Fault α) : (ofExcept e : Decoder α).Local := by
  cases e with
  | ok a => exact local_pure a
  | error fault => exact local_throw fault

theorem local_region : region.Local := by
  intro w v pos h
  change EStateM.Result.ok w.region pos = .ok v.region pos
  rw [h.region_eq]

/-- What follows a decoder begins further on, where the windows agree as well. -/
theorem Local.bind (hd : d.Local) (hprogress : d.Progresses) (hf : ∀ a, (f a).Local) :
    (d >>= f).Local := by
  intro w v pos h
  have hsame := hd h
  cases hw : d w pos with
  | ok a mid =>
    rw [bind_of_eq_ok f hw, bind_of_eq_ok f (hsame ▸ hw)]
    exact hf a (h.mono (hprogress hw).1)
  | error fault mid =>
    rw [bind_of_eq_error f hw, bind_of_eq_error f (hsame ▸ hw)]

theorem Local.map (hd : d.Local) (f : α → β) : (f <$> d).Local := by
  intro w v pos h
  have hsame := hd h
  change (d >>= fun a => pure (f a)) w pos = (d >>= fun a => pure (f a)) v pos
  cases hw : d w pos with
  | ok a mid => rw [bind_of_eq_ok _ hw, bind_of_eq_ok _ (hsame ▸ hw)]; rfl
  | error fault mid => rw [bind_of_eq_error _ hw, bind_of_eq_error _ (hsame ▸ hw)]

theorem local_ensure (n : Nat) : (ensure n).Local := by
  intro w v pos h
  rw [ensure, ensure, h.limit_eq, h.remaining_eq]

theorem local_skip (n : Nat) : (skip n).Local := by
  intro w v pos h
  rw [skip, skip, h.limit_eq, h.remaining_eq]

theorem local_byte : byte.Local := by
  intro w v pos h
  by_cases hlt : pos < w.limit
  · have hlt' : pos < v.limit := h.limit_eq ▸ hlt
    rw [byte, byte, dif_pos hlt, dif_pos hlt']
    have hsize := Window.lt_size_of_lt_limit hlt
    have hsize' := Window.lt_size_of_lt_limit hlt'
    simp only [h.getElem_eq pos hsize hsize' (Nat.le_refl pos) hlt]
  · rw [byte, byte, dif_neg hlt, dif_neg (h.limit_eq ▸ hlt), h.remaining_eq]

theorem local_bytes (n : Nat) : (bytes n).Local := by
  intro w v pos h
  by_cases hle : pos + n ≤ w.limit
  · rw [bytes, bytes, if_pos hle, if_pos (h.limit_eq ▸ hle), h.slice_eq hle]
  · rw [bytes, bytes, if_neg hle, if_neg (h.limit_eq ▸ hle), h.remaining_eq]

theorem local_unsigned (width : Nat) : (unsigned width).Local :=
  local_region.bind progresses_region fun _ => (local_bytes width).map _

theorem local_signed (width : Nat) : (signed width).Local := (local_unsigned width).map _

theorem local_sized (width : Nat) : (sized width).Local := by
  unfold sized
  split
  · exact local_throw _
  · exact (local_unsigned width).map _

theorem local_offset : offset.Local :=
  local_region.bind progresses_region fun _ => local_sized _

theorem local_address : address.Local := by
  apply local_region.bind progresses_region
  intro r
  dsimp only
  split
  · exact local_sized _
  · exact local_throw _

theorem local_leb128 : leb128.Local := by
  intro w v pos h
  rw [leb128, leb128, ← h.find?_eq, h.limit_eq]
  cases hlast : w.find? Leb128.isLast pos with
  | none => rfl
  | some last =>
    have hbounds := Window.find?_bounds hlast
    have hle : pos + (last + 1 - pos) ≤ w.limit := by omega
    simp only [h.slice_eq hle]

theorem local_uleb128 : uleb128.Local := local_leb128.map _

theorem local_sleb128 : sleb128.Local := local_leb128.map _

theorem local_terminated : terminated.Local := by
  intro w v pos h
  rw [terminated, terminated, ← h.find?_eq]
  cases hstop : w.find? (· == 0) pos with
  | none => rfl
  | some stop =>
    have hbounds := Window.find?_bounds hstop
    have hle : pos + (stop - pos) ≤ w.limit := by omega
    simp only [h.slice_eq hle]

theorem local_text : text.Local := local_terminated.map _

theorem local_skipLength : skipLength.Local :=
  local_region.bind progresses_region fun _ => local_skip _

theorem local_unitLength : unitLength.Local := by
  apply (local_unsigned 4).bind (progresses_unsigned 4)
  intro length
  split
  · exact local_pure _
  · split
    · exact (local_unsigned 8).map _
    · exact local_throw _

theorem unit_of_length {w : Window} {pos mid : Nat} {format : Format} {size : Nat}
    (h : unitLength w pos = .ok (format, size) mid) :
    unit w pos = (do
      skip size
      return { (← region) with start := pos, stop := pos + size, format }) w pos := by
  rw [unit, bind_of_eq_ok _ (position_eq w pos), bind_of_eq_ok _ h]
  rfl

theorem unit_of_error {w : Window} {pos mid : Nat} {fault : Fault}
    (h : unitLength w pos = .error fault mid) : unit w pos = .error fault mid := by
  rw [unit, bind_of_eq_ok _ (position_eq w pos), bind_of_eq_error _ h]

/-- The length is read and then passed over together with the unit, so that what follows it begins
where it does. -/
theorem local_unit : unit.Local := by
  intro w v pos h
  have hsame := local_unitLength h
  cases hw : unitLength w pos with
  | ok length mid =>
    obtain ⟨format, size⟩ := length
    rw [unit_of_length hw, unit_of_length (hsame ▸ hw)]
    apply (local_skip size).bind (progresses_skip size) _ h
    intro _
    exact local_region.bind progresses_region fun _ => local_pure _
  | error fault mid => rw [unit_of_error hw, unit_of_error (hsame ▸ hw)]

end Decoder

theorem Extent.local_skip (version : Nat) (extent : Extent) : (extent.skip version).Local := by
  cases extent with
  | elsewhere => exact local_pure _
  | fixed => exact Decoder.local_skip _
  | address =>
    apply local_region.bind progresses_region
    intro r
    split
    · exact Decoder.local_skip _
    · exact local_throw _
  | offset => exact local_region.bind progresses_region fun _ => Decoder.local_skip _
  | unitReference => exact local_region.bind progresses_region fun _ => Decoder.local_skip _
  | signedGroup => exact local_sleb128.map _
  | unsignedGroup => exact local_uleb128.map _
  | counted width =>
    exact (local_unsigned width).bind (progresses_unsigned width) fun _ => Decoder.local_skip _
  | groupCounted =>
    exact local_uleb128.bind advances_uleb128.progresses fun _ => Decoder.local_skip _
  | terminated => exact local_terminated.map _
  | unknown => exact local_throw _

namespace Form

/-- Each indirection begins where the one before it ends. -/
theorem local_follow (form : Form) : form.follow.Local := by
  intro w v pos h
  induction form, pos using follow.induct w with
  | case1 pos code mid hcode ih =>
    rw [follow_indirect, bind_of_eq_ok _ hcode, bind_of_eq_ok _ (local_uleb128 h ▸ hcode)]
    exact ih (h.mono (advances_uleb128.progresses hcode).1)
  | case2 pos fault mid hcode =>
    rw [follow_indirect, bind_of_eq_error _ hcode, bind_of_eq_error _ (local_uleb128 h ▸ hcode)]
  | case3 form pos hform =>
    rw [follow_of_ne hform]
    rfl

theorem local_skipValue (form : Form) (version : Nat) : (form.skipValue version).Local :=
  (local_follow form).bind (progresses_follow form) fun form => form.extent.local_skip version

end Form

end StackSurvey.Dwarf
