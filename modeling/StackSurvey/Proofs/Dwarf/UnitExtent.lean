import StackSurvey.Proofs.Dwarf.DelimitedUnits

namespace StackSurvey.Dwarf

open Decoder

variable {w : Window} {pos : Nat}

/-- The length that stands at a position is complete and not reserved, and says that so many bytes
follow it. -/
structure Window.StatesLength (w : Window) (pos : Nat) (format : Format) (n : Nat) : Prop where
  writes : format.Writes n
  holds : w.Holds pos (format.encodeLength w.region.order n)

namespace Window.StatesLength

variable {format : Format} {n : Nat}

theorem unitLength_eq (h : w.StatesLength pos format n) :
    ∃ next, unitLength w pos =
      .ok (format, min (n + format.lengthSize) 0xffffffffffffffff) next := by
  have hholds := h.holds
  rw [← List.append_nil (format.encodeLength w.region.order n)] at hholds
  exact unitLength_of_writes h.writes hholds

end Window.StatesLength

namespace Decoder

theorem holds_encode_of_unsigned {width n next : Nat} (h : unsigned width w pos = .ok n next) :
    w.Holds pos (w.region.order.encode width n) ∧ n < 1 <<< (8 * width) ∧ next = pos + width := by
  obtain ⟨bytes, hholds, rfl, rfl, hnext⟩ := holds_of_unsigned h
  rw [ByteOrder.encode_decode]
  exact ⟨hholds, ByteOrder.decode_lt .., hnext⟩

theorem statesLength_of_unitLength {format : Format} {size next : Nat}
    (h : unitLength w pos = .ok (format, size) next) :
    ∃ n, w.StatesLength pos format n ∧
      size = min (n + format.lengthSize) 0xffffffffffffffff := by
  obtain ⟨length, mid, hlength, h⟩ := bind_eq_ok h
  obtain ⟨hholds, hword, rfl⟩ := holds_encode_of_unsigned hlength
  split at h
  · rename_i hlt
    cases h
    have hmin : min (length + 4) 0xffffffffffffffff = length + 4 := Nat.min_eq_left (by omega)
    exact ⟨length, ⟨hlt, hholds⟩, hmin.symm⟩
  · split at h
    · rename_i hescape
      subst hescape
      obtain ⟨n, mid, hn, h⟩ := bind_eq_ok h
      obtain ⟨hlong, hnword, rfl⟩ := holds_encode_of_unsigned hn
      cases h
      refine ⟨n, ⟨hnword, Window.holds_append.2 ⟨hholds, ?_⟩⟩, rfl⟩
      rwa [ByteOrder.length_encode]
    · cases h

theorem unit_of_unitLength {format : Format} {size mid : Nat}
    (h : unitLength w pos = .ok (format, size) mid) (hle : pos + size ≤ w.limit) :
    unit w pos =
      .ok { w.region with start := pos, stop := pos + size, format } (pos + size) := by
  have hskip : skip size w pos = .ok () (pos + size) := by rw [skip, if_pos hle]
  rw [unit_of_length h, bind_of_eq_ok _ hskip]
  rfl

theorem le_limit_of_unit {format : Format} {size mid next : Nat} {r : Region}
    (hlength : unitLength w pos = .ok (format, size) mid) (h : unit w pos = .ok r next) :
    pos + size ≤ w.limit := by
  apply Nat.le_of_not_lt
  intro hlt
  obtain ⟨_, _, herror⟩ := exists_error_of_unitLength hlength hlt
  rw [herror] at h
  cases h

/-- A unit is found just where a complete length is stated and leaves the unit within the limit. -/
theorem unit_eq_ok_iff (hsize : w.data.size < 1 <<< 63) {r : Region} {next : Nat} :
    unit w pos = .ok r next ↔
      ∃ format length, w.StatesLength pos format length ∧
        pos + format.lengthSize + length ≤ w.limit ∧
        r = { w.region with
          start := pos, stop := pos + format.lengthSize + length, format } ∧
        next = r.stop := by
  have hbound : 1 <<< 63 < 0xffffffffffffffff := by decide
  have hlimit : w.limit ≤ w.data.size := Nat.min_le_right ..
  constructor
  · intro h
    cases hlength : unitLength w pos with
    | error fault mid =>
      rw [unit_of_error hlength] at h
      cases h
    | ok length mid =>
      obtain ⟨format, size⟩ := length
      obtain ⟨n, hstates, rfl⟩ := statesLength_of_unitLength hlength
      have hle := le_limit_of_unit hlength h
      -- The largest number does not fit, so the size has not been cut down to it.
      have hexact : pos + min (n + format.lengthSize) 0xffffffffffffffff =
          pos + format.lengthSize + n := by omega
      rw [unit_of_unitLength hlength hle, hexact] at h
      cases h
      exact ⟨format, n, hstates, by omega, rfl, rfl⟩
  · rintro ⟨format, n, hstates, hle, rfl, rfl⟩
    obtain ⟨mid, hlength⟩ := hstates.unitLength_eq
    have hexact : pos + min (n + format.lengthSize) 0xffffffffffffffff =
        pos + format.lengthSize + n := by omega
    rw [unit_of_unitLength hlength (by omega), hexact]

/-- Behind the length of a unit that is found there is as much as the length says. -/
theorem skipLength_of_unit (hsize : w.data.size < 1 <<< 63) {r : Region} {next : Nat}
    (h : unit w pos = .ok r next) :
    ∃ length, w.StatesLength pos r.format length ∧
      skipLength ⟨w.data, r⟩ r.start = .ok () (pos + r.format.lengthSize) ∧
      (Window.mk w.data r).remaining (pos + r.format.lengthSize) = length := by
  obtain ⟨format, length, hstates, hle, rfl, -⟩ := (unit_eq_ok_iff hsize).1 h
  have hlimit : (Window.mk w.data { w.region with
      start := pos, stop := pos + format.lengthSize + length, format }).limit =
        pos + format.lengthSize + length :=
    Nat.min_eq_left (Nat.le_trans hle (Nat.min_le_right ..))
  refine ⟨length, hstates, ?_, ?_⟩
  · have hfits : pos + format.lengthSize ≤ (Window.mk w.data { w.region with
        start := pos, stop := pos + format.lengthSize + length, format }).limit := by
      rw [hlimit]
      exact Nat.le_add_right ..
    exact if_pos hfits
  · rw [Window.remaining, hlimit, Nat.add_sub_cancel_left]

/-- Of a length that is stated a word is made, exact unless the unit is too long in any case. -/
theorem exists_size_of_statesLength (hsize : w.data.size < 1 <<< 63) {format : Format}
    {length : Nat} (h : w.StatesLength pos format length) :
    ∃ size next, unitLength w pos = .ok (format, size) next ∧ size < 1 <<< 64 ∧
      (size = format.lengthSize + length ∨ w.limit < pos + size) := by
  obtain ⟨next, hlength⟩ := h.unitLength_eq
  have hlimit : w.limit ≤ w.data.size := Nat.min_le_right ..
  have hhost : 1 <<< 63 < 0xffffffffffffffff := by decide
  have hword : 0xffffffffffffffff < 1 <<< 64 := by decide
  exact ⟨_, next, hlength, by omega, by omega⟩

/-- In a buffer of less than 2^63 bytes a unit is found just where a complete length that is not
reserved leaves it within the limit. Its bounds are exact, and behind its length there is as much as
the length says. However large the length is, its size is a word. -/
theorem unit_bounds_exact (w : Window) (pos : Nat) (hsize : w.data.size < 1 <<< 63) :
    (∀ r next, unit w pos = .ok r next ↔
      ∃ format length, w.StatesLength pos format length ∧
        pos + format.lengthSize + length ≤ w.limit ∧
        r = { w.region with
          start := pos, stop := pos + format.lengthSize + length, format } ∧
        next = r.stop) ∧
      (∀ r next, unit w pos = .ok r next →
        ∃ length, w.StatesLength pos r.format length ∧
          skipLength ⟨w.data, r⟩ r.start = .ok () (pos + r.format.lengthSize) ∧
          (Window.mk w.data r).remaining (pos + r.format.lengthSize) = length) ∧
      ∀ format length, w.StatesLength pos format length →
        ∃ size next, unitLength w pos = .ok (format, size) next ∧ size < 1 <<< 64 ∧
          (size = format.lengthSize + length ∨ w.limit < pos + size) :=
  ⟨fun _ _ => unit_eq_ok_iff hsize, fun _ _ => skipLength_of_unit hsize,
    fun _ _ => exists_size_of_statesLength hsize⟩

/-- A byte, a unit of three bytes in the wider format, and the largest length in that format. -/
def wideUnits : Window where
  data := ⟨#[0xaa, 0xff, 0xff, 0xff, 0xff, 3, 0, 0, 0, 0, 0, 0, 0, 1, 2, 3,
    0xff, 0xff, 0xff, 0xff, 0xff, 0xff, 0xff, 0xff, 0xff, 0xff, 0xff, 0xff, 9]⟩
  region := { start := 0, stop := 29, order := .little }

theorem statesLength_short_wideUnits : wideUnits.StatesLength 1 .bits64 3 where
  writes := by change 3 < 1 <<< 64; decide
  holds := ⟨by decide, rfl⟩

theorem statesLength_largest_wideUnits :
    wideUnits.StatesLength 16 .bits64 0xffffffffffffffff where
  writes := by change 0xffffffffffffffff < 1 <<< 64; decide
  holds := ⟨by decide, rfl⟩

theorem unit_bounds_exact_wideUnits :
    wideUnits.data.size < 1 <<< 63 ∧
      (∃ r, unit wideUnits 1 = .ok r 16 ∧ r.start = 1 ∧ r.stop = 16 ∧
        skipLength ⟨wideUnits.data, r⟩ 1 = .ok () 13) ∧
      (∃ size next, unitLength wideUnits 16 = .ok (.bits64, size) next ∧ size < 1 <<< 64 ∧
        wideUnits.limit < 16 + size) := by
  have hsize : wideUnits.data.size < 1 <<< 63 := by decide
  obtain ⟨hfound, hcontent, -⟩ := unit_bounds_exact wideUnits 1 hsize
  obtain ⟨-, -, hwords⟩ := unit_bounds_exact wideUnits 16 hsize
  have hunit := (hfound _ _).2 ⟨_, _, statesLength_short_wideUnits, by decide, rfl, rfl⟩
  obtain ⟨_, -, hskip, -⟩ := hcontent _ _ hunit
  obtain ⟨size, next, hlength, hword, hexact | hbeyond⟩ := hwords _ _ statesLength_largest_wideUnits
  · exact absurd (hexact ▸ hword) (by decide)
  · exact ⟨hsize, ⟨_, hunit, rfl, rfl, hskip⟩, size, next, hlength, hword, hbeyond⟩

end Decoder

end StackSurvey.Dwarf
