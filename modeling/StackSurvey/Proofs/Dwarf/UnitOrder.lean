import StackSurvey.Dwarf.DebugInfo

namespace StackSurvey.Dwarf

open Decoder

variable {w : Window} {pos next : Nat}

theorem Decoder.bounds_of_unit {region : Region} (h : unit w pos = .ok region next) :
    region.start = pos ∧ region.stop = next := by
  obtain ⟨start, p₁, h₁, h⟩ := bind_eq_ok h
  obtain ⟨⟨format, size⟩, p₂, h₂, h⟩ := bind_eq_ok h
  obtain ⟨_, p₃, h₃, h⟩ := bind_eq_ok h
  obtain ⟨_, p₄, h₄, h⟩ := bind_eq_ok h
  obtain ⟨_, p₅, h₅, h⟩ := bind_eq_ok h
  cases h₁
  cases h₃
  cases h₅
  cases h
  unfold skip at h₄
  split at h₄ <;> cases h₄
  exact ⟨rfl, rfl⟩

namespace UnitHeader

theorem progresses_skipExtras (unitType : Nat) : (skipExtras unitType).Progresses := by
  unfold skipExtras
  split
  · exact progresses_skip 8
  · split
    · exact (progresses_skip 8).bind fun _ =>
        advances_offset.progresses.bind fun _ => progresses_pure _
    · exact progresses_pure _

/-- A decoder of a header answers with a root that does not lie before the header. -/
def Precedes (d : Decoder UnitHeader) : Prop :=
  ∀ ⦃w pos header next⦄, d w pos = .ok header next → pos ≤ header.rootOffset

theorem Precedes.bind {α : Type} {d : Decoder α} {f : α → Decoder UnitHeader} (hd : d.Progresses)
    (hf : ∀ a, Precedes (f a)) : Precedes (d >>= f) := by
  intro w pos header next h
  obtain ⟨a, mid, h₁, h₂⟩ := bind_eq_ok h
  exact Nat.le_trans (hd h₁).1 (hf a h₂)

theorem precedes_throw_bind {α : Type} (e : Fault) (f : α → Decoder UnitHeader) :
    Precedes (throw e >>= f) := by
  intro w pos header next h
  cases h

theorem precedes_position (version unitType addressSize : Nat) (abbreviationOffset : UInt64) :
    Precedes do
      return { version, unitType, addressSize, abbreviationOffset, rootOffset := ← position } := by
  intro w pos header next h
  cases h
  exact Nat.le_refl pos

theorem precedes_decode : Precedes decode := by
  refine .bind (progresses_region.bind fun _ => progresses_skip _) fun _ => ?_
  refine .bind (progresses_unsigned 2) fun version => ?_
  dsimp only
  split
  · exact precedes_throw_bind ..
  · split
    · refine .bind (progresses_unsigned 1) fun unitType => ?_
      refine .bind (progresses_unsigned 1) fun addressSize => ?_
      refine .bind advances_offset.progresses fun abbreviationOffset => ?_
      refine .bind (progresses_skipExtras unitType) fun _ => ?_
      refine .bind (progresses_pure _) fun (unitType, addressSize, abbreviationOffset) => ?_
      split
      · exact precedes_throw_bind ..
      · exact precedes_position ..
    · refine .bind advances_offset.progresses fun abbreviationOffset => ?_
      refine .bind (progresses_unsigned 1) fun addressSize => ?_
      refine .bind (progresses_pure _) fun (unitType, addressSize, abbreviationOffset) => ?_
      split
      · exact precedes_throw_bind ..
      · exact precedes_position ..

end UnitHeader

theorem DebugUnit.ofRegion_of_decode (index : Nat) (sections : DebugSections) {info : ByteArray}
    {region : Region} {header : UnitHeader}
    (h : UnitHeader.decode ⟨info, region⟩ region.start = .ok header next) :
    ofRegion index sections info region =
      .ok
        { index, header, info, sections
          region := { region with addressSize := header.addressSize }
          abbreviations := loadAbbreviations sections region.order header } := by
  rw [ofRegion, h]

/-- All that a unit is, beside its place and the file, it has from its header. -/
theorem DebugUnit.exists_decode_of_ofRegion {index : Nat} {sections : DebugSections}
    {info : ByteArray} {region : Region} {u : DebugUnit}
    (h : ofRegion index sections info region = .ok u) :
    ∃ header next, UnitHeader.decode ⟨info, region⟩ region.start = .ok header next ∧
      u =
        { index, header, info, sections
          region := { region with addressSize := header.addressSize }
          abbreviations := loadAbbreviations sections region.order header } := by
  unfold ofRegion at h
  split at h <;> cases h
  exact ⟨_, _, ‹_›, rfl⟩

theorem DebugUnit.bounds_of_ofRegion {index : Nat} {sections : DebugSections} {info : ByteArray}
    {region : Region} {u : DebugUnit} (h : ofRegion index sections info region = .ok u) :
    u.offset = region.start ∧ u.region.stop = region.stop ∧ u.offset ≤ u.header.rootOffset := by
  obtain ⟨header, next, hdecode, rfl⟩ := exists_decode_of_ofRegion h
  exact ⟨rfl, rfl, UnitHeader.precedes_decode hdecode⟩

/-- Units that follow each other, the last of them ending before a position. -/
structure Consecutive (units : List DebugUnit) (pos : Nat) : Prop where
  pairwise : units.Pairwise fun u v => u.region.stop ≤ v.offset
  stop_le : ∀ u ∈ units, u.region.stop ≤ pos
  offset_lt_stop : ∀ u ∈ units, u.offset < u.region.stop
  offset_le_root : ∀ u ∈ units, u.offset ≤ u.header.rootOffset

namespace Consecutive

variable {units : List DebugUnit} {u : DebugUnit} {i j target : Nat}

theorem mono (h : Consecutive units pos) (hle : pos ≤ next) : Consecutive units next :=
  { h with stop_le := fun u hu => Nat.le_trans (h.stop_le u hu) hle }

theorem concat (h : Consecutive units pos) (hstart : u.offset = pos) (hstop : u.region.stop = next)
    (hlt : pos < next) (hroot : u.offset ≤ u.header.rootOffset) :
    Consecutive (units ++ [u]) next where
  pairwise := by
    refine List.pairwise_append.2 ⟨h.pairwise, List.pairwise_singleton .., fun v hv x hx => ?_⟩
    obtain rfl := List.mem_singleton.1 hx
    exact hstart ▸ h.stop_le v hv
  stop_le := List.forall_mem_append.2
    ⟨(h.mono (Nat.le_of_lt hlt)).stop_le, List.forall_mem_singleton.2 (Nat.le_of_eq hstop)⟩
  offset_lt_stop := List.forall_mem_append.2
    ⟨h.offset_lt_stop, List.forall_mem_singleton.2 (by omega)⟩
  offset_le_root := List.forall_mem_append.2 ⟨h.offset_le_root, List.forall_mem_singleton.2 hroot⟩

theorem stop_le_offset (h : Consecutive units pos) (hij : i < j) (hj : j < units.length) :
    units[i].region.stop ≤ units[j].offset :=
  List.pairwise_iff_getElem.1 h.pairwise i j (Nat.lt_trans hij hj) hj hij

theorem offset_mono (h : Consecutive units pos) (hij : i ≤ j) (hj : j < units.length) :
    units[i].offset ≤ units[j].offset := by
  rcases Nat.lt_or_eq_of_le hij with hlt | rfl
  · have := h.offset_lt_stop _ (List.getElem_mem (Nat.lt_trans hlt hj))
    have := h.stop_le_offset hlt hj
    omega
  · exact Nat.le_refl _

end Consecutive

namespace DebugInfo

variable {sections : DebugSections} {d : DebugInfo} {u : DebugUnit}

theorem scan_of_error {before : Array DebugUnit} {fault : Fault} {mid : Nat}
    (h : unit w pos = .error fault mid) : scan sections w pos before = before := by
  rw [scan]
  split
  · split
    · rfl
    · rename_i hunit
      rw [h] at hunit
      cases hunit
  · rfl

theorem scan_of_region {before : Array DebugUnit} {region : Region} (hlt : pos < w.limit)
    (h : unit w pos = .ok region next) :
    scan sections w pos before =
      match DebugUnit.ofRegion before.size sections w.data region with
      | .ok u => scan sections w next (before.push u)
      | .error _ => scan sections w next before := by
  rw [scan, if_pos hlt]
  split
  · rename_i hunit
    rw [h] at hunit
    cases hunit
  · rename_i hunit
    rw [h] at hunit
    cases hunit
    rfl

theorem scan_of_unit {before : Array DebugUnit} {region : Region} (hlt : pos < w.limit)
    (hregion : unit w pos = .ok region next)
    (hunit : DebugUnit.ofRegion before.size sections w.data region = .ok u) :
    scan sections w pos before = scan sections w next (before.push u) := by
  rw [scan_of_region hlt hregion, hunit]

theorem getElem?_scan_of_lt {before : Array DebugUnit} {i : Nat} (h : i < before.size) :
    (scan sections w pos before)[i]? = before[i]? := by
  induction pos, before using scan.induct sections w with
  | case1 pos before hlt fault mid hunit => rw [scan_of_error hunit]
  | case2 pos before hlt region next hunit x hx ih =>
    rw [scan_of_unit hlt hunit hx, ih (by rw [Array.size_push]; omega), Array.getElem?_push_lt h,
      Array.getElem?_eq_getElem h]
  | case3 pos before hlt region next hunit fault hx ih =>
    rw [scan_of_region hlt hunit, hx]
    exact ih h
  | case4 pos before hlt => rw [scan, if_neg hlt]

/-- The unit that a scan finds first is the next one it lists. -/
theorem getElem?_scan_push (sections : DebugSections) (w : Window) (pos : Nat)
    (before : Array DebugUnit) (u : DebugUnit) :
    (scan sections w pos (before.push u))[before.size]? = some u := by
  rw [getElem?_scan_of_lt (by rw [Array.size_push]; omega), Array.getElem?_push_size]

/-- Every unit that a scan lists is the one in a region further on, numbered by its place. -/
theorem exists_region_of_getElem?_scan {before : Array DebugUnit} {i : Nat}
    (h : (scan sections w pos before)[i]? = some u) (hi : before.size ≤ i) :
    ∃ r next, unit w r.start = .ok r next ∧ pos ≤ r.start ∧
      DebugUnit.ofRegion i sections w.data r = .ok u := by
  induction pos, before using scan.induct sections w with
  | case1 pos before hlt fault mid hunit =>
    rw [scan_of_error hunit, Array.getElem?_eq_none hi] at h
    cases h
  | case2 pos before hlt region next hunit x hx ih =>
    rw [scan_of_unit hlt hunit hx] at h
    obtain ⟨hstart, -⟩ := bounds_of_unit hunit
    rcases Nat.eq_or_lt_of_le hi with rfl | hlater
    · rw [getElem?_scan_push] at h
      cases h
      exact ⟨region, next, hstart ▸ hunit, Nat.le_of_eq hstart.symm, hx⟩
    · obtain ⟨r, stop, hr, hle, hu⟩ := ih h (by rw [Array.size_push]; omega)
      exact ⟨r, stop, hr, Nat.le_trans (Nat.le_of_lt (advances_unit hunit).1) hle, hu⟩
  | case3 pos before hlt region next hunit fault hx ih =>
    rw [scan_of_region hlt hunit, hx] at h
    obtain ⟨r, stop, hr, hle, hu⟩ := ih h hi
    exact ⟨r, stop, hr, Nat.le_trans (Nat.le_of_lt (advances_unit hunit).1) hle, hu⟩
  | case4 pos before hlt =>
    rw [scan, if_neg hlt, Array.getElem?_eq_none hi] at h
    cases h

theorem consecutive_scan {before : Array DebugUnit} (h : Consecutive before.toList pos) :
    ∃ stop, Consecutive (scan sections w pos before).toList stop := by
  induction pos, before using scan.induct sections w with
  | case1 pos before hlt fault mid hunit =>
    rw [scan_of_error hunit]
    exact ⟨pos, h⟩
  | case2 pos before hlt region next hunit u hu ih =>
    obtain ⟨hstart, hstop⟩ := bounds_of_unit hunit
    obtain ⟨hoffset, hregion, hroot⟩ := DebugUnit.bounds_of_ofRegion hu
    have hadvance := (advances_unit hunit).1
    have hpush : Consecutive (before.push u).toList next := by
      rw [Array.toList_push]
      exact h.concat (hoffset.trans hstart) (hregion.trans hstop) hadvance hroot
    rw [scan_of_unit hlt hunit hu]
    exact ih hpush
  | case3 pos before hlt region next hunit fault hu ih =>
    rw [scan_of_region hlt hunit, hu]
    exact ih (h.mono (Nat.le_of_lt (advances_unit hunit).1))
  | case4 pos before hlt =>
    rw [scan, if_neg hlt]
    exact ⟨pos, h⟩

theorem consecutive_of_ofSections {order : ByteOrder} (h : ofSections sections order = .ok d) :
    ∃ stop, Consecutive d.units.toList stop := by
  unfold ofSections at h
  split at h <;> cases h
  refine consecutive_scan ⟨.nil, ?_, ?_, ?_⟩ <;> exact List.forall_mem_nil _

theorem lt_partitionPoint_offset_iff {stop : Nat} (h : Consecutive d.units.toList stop)
    (target : Nat) {i : Nat} (hi : i < d.units.size) :
    i < partitionPoint (·.offset ≤ target) d.units ↔ d.units[i].offset ≤ target := by
  rw [lt_partitionPoint_iff _ i hi, decide_eq_true_eq]
  intro i j hij hj hle
  rw [decide_eq_true_eq] at hle ⊢
  exact Nat.le_trans (h.offset_mono hij hj) hle

/-- An offset inside a unit is found in that unit. -/
theorem unitContaining?_of_mem {stop target : Nat} (h : Consecutive d.units.toList stop)
    (hu : u ∈ d.units) (hstart : u.offset ≤ target) (hstop : target < u.region.stop) :
    d.unitContaining? target = some u := by
  obtain ⟨i, hi, rfl⟩ := Array.getElem_of_mem hu
  have hlt := (lt_partitionPoint_offset_iff h target hi).2 hstart
  have hsize := partitionPoint_le_size (·.offset ≤ target) d.units
  -- The unit after this one begins past the offset.
  have hnext : ¬ i + 1 < partitionPoint (·.offset ≤ target) d.units := by
    intro hnext
    have hi' : i + 1 < d.units.size := by omega
    have hle := (lt_partitionPoint_offset_iff h target hi').1 hnext
    have hafter : d.units[i].region.stop ≤ d.units[i + 1].offset :=
      h.stop_le_offset (Nat.lt_add_one i) hi'
    omega
  rw [unitContaining?, show partitionPoint (·.offset ≤ target) d.units = i + 1 by omega]
  exact Array.getElem?_eq_getElem hi

/-- An offset where an entry of a unit may begin is found in that unit. -/
theorem unitContaining?_of_containsOffset {stop target : Nat}
    (h : Consecutive d.units.toList stop) (hu : u ∈ d.units)
    (hin : u.containsOffset target = true) : d.unitContaining? target = some u := by
  rw [DebugUnit.containsOffset, Bool.and_eq_true, decide_eq_true_eq, decide_eq_true_eq] at hin
  have hroot := h.offset_le_root u (Array.mem_toList_iff.2 hu)
  exact unitContaining?_of_mem h hu (Nat.le_trans hroot hin.1) hin.2

end DebugInfo

end StackSurvey.Dwarf
