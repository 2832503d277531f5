import Mathlib.Algebra.GroupWithZero.Nat
import StackSurvey.Dwarf.DebugSections
import StackSurvey.Proofs.Dwarf.Reading

namespace StackSurvey.Dwarf

namespace Format

/-- The bytes of the length of a unit that has `n` more bytes. -/
def encodeLength (format : Format) (order : ByteOrder) (n : Nat) : List UInt8 :=
  match format with
  | bits32 => order.encode 4 n
  | bits64 => order.encode 4 0xffffffff ++ order.encode 8 n

/-- The number of bytes that a unit can have behind its length. -/
def Fits (format : Format) (n : Nat) : Prop :=
  match format with
  | bits32 => n < 0xfffffff0
  | bits64 => n + 12 < 1 <<< 64

theorem lengthSize_pos (format : Format) : 0 < format.lengthSize := by
  cases format <;> decide

theorem length_encodeLength (format : Format) (order : ByteOrder) (n : Nat) :
    (format.encodeLength order n).length = format.lengthSize := by
  cases format with
  | bits32 => exact ByteOrder.length_encode ..
  | bits64 =>
    rw [encodeLength, List.length_append, ByteOrder.length_encode, ByteOrder.length_encode]
    rfl

theorem Fits.lt {format : Format} {n : Nat} (h : format.Fits n) :
    n < 1 <<< (8 * format.offsetSize) := by
  cases format with
  | bits32 => exact Nat.lt_of_lt_of_le h (by decide)
  | bits64 => exact Nat.lt_of_le_of_lt (Nat.le_add_right ..) h

theorem Fits.toNat_ofNat {format : Format} {n : Nat} (h : format.Fits n) :
    (UInt64.ofNat n).toNat = n := by
  have hlt : n < 1 <<< 64 := by
    cases format with
    | bits32 => exact Nat.lt_of_lt_of_le h (by decide)
    | bits64 => exact h.lt
  exact UInt64.toNat_ofNat_of_lt' hlt

theorem Fits.mono {format : Format} {m n : Nat} (h : format.Fits n) (hle : m ≤ n) :
    format.Fits m := by
  cases format with
  | bits32 => exact Nat.lt_of_le_of_lt hle h
  | bits64 => exact Nat.lt_of_le_of_lt (Nat.add_le_add_right hle 12) h

end Format

theorem lt_word_of_width_le {width n : Nat} (hn : n < 1 <<< (8 * width)) (h : width ≤ 8) :
    n < 1 <<< 64 := by
  have hword : 1 <<< (8 * width) ≤ 1 <<< 64 := by
    rw [Nat.one_shiftLeft, Nat.one_shiftLeft]
    exact Nat.pow_le_pow_right (by decide) (by omega)
  exact Nat.lt_of_lt_of_le hn hword

theorem toNat_ofNat_of_width_le {width n : Nat} (hn : n < 1 <<< (8 * width)) (h : width ≤ 8) :
    (UInt64.ofNat n).toNat = n :=
  UInt64.toNat_ofNat_of_lt' (lt_word_of_width_le hn h)

namespace Decoder

variable {r : Region} {width n : Nat}

theorem reads_encode (hn : n < 1 <<< (8 * width)) :
    (unsigned width).Reads r (r.order.encode width n) n := by
  have h := reads_unsigned (r := r) (r.order.encode width n)
  rw [ByteOrder.length_encode, ByteOrder.decode_encode, Nat.mod_eq_of_lt hn] at h
  exact h

theorem reads_unsigned_one (b : UInt8) : (unsigned 1).Reads r [b] b.toNat := by
  have h := reads_unsigned (r := r) [b]
  rw [ByteOrder.decode_singleton] at h
  exact h

theorem holds_of_unsigned_one {w : Window} {pos next : Nat} (h : unsigned 1 w pos = .ok n next) :
    ∃ b : UInt8, w.Holds pos [b] ∧ n = b.toNat ∧ next = pos + 1 := by
  obtain ⟨bytes, hholds, hlength, rfl, hnext⟩ := holds_of_unsigned h
  rw [hlength] at hnext
  obtain ⟨b, rfl⟩ := List.length_eq_one_iff.1 hlength
  exact ⟨b, hholds, ByteOrder.decode_singleton .., hnext⟩

theorem reads_signed_one (b : Int8) : (signed 1).Reads r [b.toUInt8] b.toInt := by
  have h := (reads_unsigned_one (r := r) b.toUInt8).map
    (f := fun n : Nat => Int.bmod n (1 <<< (8 * 1)))
  have hbmod : Int.bmod b.toUInt8.toNat (1 <<< (8 * 1)) = b.toInt :=
    (BitVec.toInt_eq_toNat_bmod b.toBitVec).symm
  rw [hbmod] at h
  exact h

theorem reads_sized (hpos : 0 < width) (hle : width ≤ 8) (hn : n < 1 <<< (8 * width)) :
    (sized width).Reads r (r.order.encode width n) (.ofNat n) := by
  have hwidth : ¬ (width = 0 ∨ 8 < width) := by omega
  rw [sized, if_neg hwidth]
  exact (reads_encode hn).map

theorem bounds_offsetSize (format : Format) : 0 < format.offsetSize ∧ format.offsetSize ≤ 8 := by
  cases format <;> decide

theorem reads_offset (hn : n < 1 <<< (8 * r.format.offsetSize)) :
    offset.Reads r (r.order.encode r.format.offsetSize n) (.ofNat n) := by
  obtain ⟨hpos, hle⟩ := bounds_offsetSize r.format
  exact reads_region.bind (reads_sized hpos hle hn)

theorem reads_offset_of_length {bytes : List UInt8} (h : bytes.length = r.format.offsetSize) :
    offset.Reads r bytes (.ofNat (r.order.decode bytes)) := by
  have hread := reads_offset (r := r) (h ▸ ByteOrder.decode_lt r.order bytes)
  rw [← h, ByteOrder.encode_decode] at hread
  exact hread

theorem holds_of_offset {w : Window} {pos next : Nat} {value : UInt64}
    (h : offset w pos = .ok value next) :
    ∃ bytes, w.Holds pos bytes ∧ bytes.length = w.region.format.offsetSize ∧
      value = .ofNat (w.region.order.decode bytes) ∧ next = pos + bytes.length := by
  obtain ⟨_, _, h₁, h⟩ := bind_eq_ok h
  cases h₁
  obtain ⟨hpos, hle⟩ := bounds_offsetSize w.region.format
  rw [sized, if_neg (by omega)] at h
  obtain ⟨_, h₂, rfl⟩ := map_eq_ok h
  obtain ⟨bytes, hholds, hlength, rfl, hnext⟩ := holds_of_unsigned h₂
  exact ⟨bytes, hholds, hlength, rfl, hnext⟩

theorem bounds_of_isAddressSize {size : Nat} (h : isAddressSize size = true) :
    0 < size ∧ size ≤ 8 := by
  simp only [isAddressSize, Bool.or_eq_true, beq_iff_eq] at h
  omega

theorem reads_address (hsize : isAddressSize r.addressSize = true)
    (hn : n < 1 <<< (8 * r.addressSize)) :
    address.Reads r (r.order.encode r.addressSize n) (.ofNat n) := by
  obtain ⟨hpos, hle⟩ := bounds_of_isAddressSize hsize
  refine reads_region.bind ?_
  rw [if_pos hsize]
  exact reads_sized hpos hle hn

theorem reads_text {text : List UInt8} (h : 0 ∉ text) :
    Decoder.text.Reads r (text ++ [0]) (Utf8.lossy text) :=
  (reads_terminated h).map

/-- The number of a width that two's complement writes a signed number as. -/
def complement (width : Nat) (n : Int) : Nat := (n % (1 <<< (8 * width) : Nat)).toNat

theorem one_shiftLeft_double (h : 0 < width) :
    1 <<< (8 * width) = 2 * 1 <<< (8 * width - 1) := by
  obtain ⟨k, hk⟩ : ∃ k, 8 * width = k + 1 := ⟨8 * width - 1, by omega⟩
  rw [hk, Nat.add_sub_cancel, Nat.one_shiftLeft, Nat.one_shiftLeft, Nat.pow_succ, Nat.mul_comm]

theorem reads_signed {n : Int} (hpos : 0 < width)
    (hlow : -(1 <<< (8 * width - 1) : Nat) ≤ n) (hhigh : n < (1 <<< (8 * width - 1) : Nat)) :
    (signed width).Reads r (r.order.encode width (complement width n)) n := by
  have hdouble := one_shiftLeft_double hpos
  have hmodulus : ((1 <<< (8 * width) : Nat) : Int) ≠ 0 := by omega
  have hcast : (complement width n : Int) = n % (1 <<< (8 * width) : Nat) :=
    Int.toNat_of_nonneg (Int.emod_nonneg n hmodulus)
  have hlt : complement width n < 1 <<< (8 * width) := by
    have := Int.emod_lt_of_pos n (show (0 : Int) < (1 <<< (8 * width) : Nat) by omega)
    omega
  have hbmod : Int.bmod (complement width n) (1 <<< (8 * width)) = n := by
    rw [hcast, Int.emod_bmod]
    exact Int.bmod_eq_of_le (by omega) (by omega)
  have h := (reads_encode (r := r) hlt).map (f := fun n : Nat => Int.bmod n (1 <<< (8 * width)))
  rw [hbmod] at h
  exact h

theorem reads_unitLength {format : Format} (h : format.Fits n) :
    unitLength.Reads r (format.encodeLength r.order n) (format, n + format.lengthSize) := by
  cases format with
  | bits32 =>
    have hlt : n < 0xfffffff0 := h
    refine (reads_encode h.lt).bind_nil ?_
    rw [if_pos hlt]
    exact reads_pure _
  | bits64 =>
    have hsize : min (n + 12) 0xffffffffffffffff = n + 12 :=
      Nat.min_eq_left (Nat.le_of_lt_succ h)
    have hlength := (reads_encode (r := r) (show n < 1 <<< (8 * 8) from h.lt)).map
      (f := fun n => (Format.bits64, min (n + 12) 0xffffffffffffffff))
    rw [hsize] at hlength
    exact (reads_encode (by decide)).bind hlength

theorem reads_skipLength (order : ByteOrder) (n : Nat) :
    skipLength.Reads r (r.format.encodeLength order n) () := by
  have hskip := reads_skip (r := r) (r.format.encodeLength order n)
  rw [Format.length_encodeLength] at hskip
  exact reads_region.bind hskip

/-- A unit lies where its length and the bytes behind it are. -/
theorem unit_of_holds {w : Window} {pos : Nat} {format : Format} {content bytes : List UInt8}
    (hfits : format.Fits content.length)
    (hbytes : bytes = format.encodeLength w.region.order content.length ++ content)
    (h : w.Holds pos bytes) :
    unit w pos = .ok { w.region with start := pos, stop := pos + bytes.length, format }
      (pos + bytes.length) := by
  have hlength := reads_unitLength hfits rfl (Window.holds_append.1 (hbytes ▸ h)).1
  have hsize : content.length + format.lengthSize = bytes.length := by
    rw [hbytes, List.length_append, Format.length_encodeLength, Nat.add_comm]
  rw [unit, bind_of_eq_ok _ (position_eq w pos), bind_of_eq_ok _ hlength, hsize]
  exact bind_of_eq_ok _ (reads_skip bytes rfl h)

end Decoder

namespace DebugSections

/-- A section has a text at an offset. -/
structure HasText (sections : DebugSections) (name : DebugSection)
    (order : ByteOrder) (offset : Nat) (text : List UInt8) : Prop where
  zero_notMem : 0 ∉ text
  holds : ∃ data, sections.get? name = some data ∧
    (Window.mk data (.whole data order)).Holds offset (text ++ [0])

variable {α : Type} {sections : DebugSections} {name : DebugSection} {data : ByteArray}
  {order : ByteOrder} {offset : UInt64} {dec : Decoder α} {a : α} {bytes : List UInt8}

theorem decodeAt_of_holds {next : Nat} (hdata : sections.get? name = some data) (hne : bytes ≠ [])
    (h : (Window.mk data (.whole data order)).Holds offset.toNat bytes)
    (hdec : dec ⟨data, .whole data order⟩ offset.toNat = .ok a next) :
    sections.decodeAt name offset order dec = .ok a := by
  have hlt : offset.toNat < data.size := by
    have hle := h.le_limit
    have hpos := List.length_pos_iff.2 hne
    have hlimit : (Window.mk data (.whole data order)).limit ≤ data.size := Nat.min_le_right ..
    omega
  rw [decodeAt, hdata]
  simp only [hlt, if_true]
  rw [hdec]

theorem decodeAt_of_reads (hdata : sections.get? name = some data) (hne : bytes ≠ [])
    (hdec : dec.Reads (.whole data order) bytes a)
    (h : (Window.mk data (.whole data order)).Holds offset.toNat bytes) :
    sections.decodeAt name offset order dec = .ok a :=
  decodeAt_of_holds hdata hne h (hdec rfl h)

theorem HasText.textAt_eq {text : List UInt8} (h : sections.HasText name order offset.toNat text) :
    sections.textAt name offset order = .ok (Utf8.lossy text) := by
  obtain ⟨hzero, data, hdata, hholds⟩ := h
  exact decodeAt_of_reads hdata (by simp) (Decoder.reads_text hzero) hholds

end DebugSections

end StackSurvey.Dwarf
