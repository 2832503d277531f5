import StackSurvey.Proofs.Dwarf.Locality
import StackSurvey.Proofs.Dwarf.UnitHeaderBytes
import StackSurvey.Proofs.Dwarf.UnitOrder

namespace StackSurvey.Dwarf

open Decoder

variable {order : ByteOrder} {w : Window} {pos start : Nat}

/-- A unit as it is written: its length, in one of two formats, and as many bytes as it says. -/
structure DelimitedUnit where
  format : Format
  content : List UInt8
  fits : format.Fits content.length

/-- The numbers that a length can say. -/
def Format.Writes (format : Format) (n : Nat) : Prop :=
  match format with
  | bits32 => n < 0xfffffff0
  | bits64 => n < 1 <<< 64

/-- Bytes that no unit begins with: none at all, a length that is cut off or reserved, or one that
says more than there is. -/
inductive NoUnit (order : ByteOrder) : List UInt8 → Prop
  | empty : NoUnit order []
  | cutLength {rest : List UInt8} (h : rest.length < 4) : NoUnit order rest
  | cutLongLength {rest : List UInt8} (h : rest.length < 8) :
      NoUnit order (order.encode 4 0xffffffff ++ rest)
  | reserved {length : Nat} {rest : List UInt8} (hlow : 0xfffffff0 ≤ length)
      (hhigh : length < 0xffffffff) : NoUnit order (order.encode 4 length ++ rest)
  | beyond {format : Format} {n : Nat} {rest : List UInt8} (hn : format.Writes n)
      (h : rest.length < n) : NoUnit order (format.encodeLength order n ++ rest)

namespace DelimitedUnit

variable {x : DelimitedUnit} {header : UnitHeader}

def bytes (order : ByteOrder) (x : DelimitedUnit) : List UInt8 :=
  x.format.encodeLength order x.content.length ++ x.content

theorem length_bytes (order : ByteOrder) (x : DelimitedUnit) :
    (x.bytes order).length = x.format.lengthSize + x.content.length := by
  rw [bytes, List.length_append, Format.length_encodeLength]

theorem length_bytes_pos (order : ByteOrder) (x : DelimitedUnit) : 0 < (x.bytes order).length := by
  rw [length_bytes]
  exact Nat.add_pos_left x.format.lengthSize_pos _

theorem lt_limit (h : w.Holds pos (x.bytes order)) : pos < w.limit := by
  have := h.le_limit
  have := x.length_bytes_pos order
  omega

def regionAt (x : DelimitedUnit) (order : ByteOrder) (start : Nat) : Region :=
  { start, stop := start + (x.bytes order).length, format := x.format, order }

/-- A unit at an offset begins with a header: there is one at the beginning of its content, and the
first entry follows it. -/
def HasHeader (x : DelimitedUnit) (order : ByteOrder) (start : Nat) (header : UnitHeader) : Prop :=
  ∃ bytes rest, x.content = bytes ++ rest ∧
    UnitHeader.Layout order x.format header.version header.unitType header.addressSize
      header.abbreviationOffset bytes ∧
    header.rootOffset = start + x.format.lengthSize + bytes.length

/-- The unit that is found at an offset, after as many others as its index says. -/
def unitAt (x : DelimitedUnit) (sections : DebugSections) (info : ByteArray) (order : ByteOrder)
    (start index : Nat) (header : UnitHeader) : DebugUnit where
  index := index
  header := header
  region := { x.regionAt order start with addressSize := header.addressSize }
  info := info
  sections := sections
  abbreviations := DebugUnit.loadAbbreviations sections order header

theorem endsWith_regionAt {info : ByteArray} {r : Region}
    (h : (Window.mk info r).Holds start (x.bytes order)) :
    (Window.mk info (x.regionAt order start)).EndsWith start (x.bytes order) := by
  have hlimit : (Window.mk info r).limit ≤ info.size := Nat.min_le_right ..
  have hle := h.le_limit
  have heq : (Window.mk info (x.regionAt order start)).limit =
      start + (x.bytes order).length := by
    apply Nat.min_eq_left
    change start + (x.bytes order).length ≤ info.size
    omega
  exact ⟨⟨Nat.le_of_eq heq.symm, h.slice_eq⟩, heq⟩

theorem endsWith_unitAt {info : ByteArray}
    (h : (Window.mk info (.whole info order)).Holds start (x.bytes order))
    (sections : DebugSections) (index : Nat) (header : UnitHeader) :
    (x.unitAt sections info order start index header).window.EndsWith start (x.bytes order) :=
  have hregion := endsWith_regionAt h
  ⟨⟨hregion.holds.le_limit, hregion.holds.slice_eq⟩, hregion.limit_eq⟩

/-- A unit has a header just if one is decoded within its bytes. -/
theorem hasHeader_iff {info : ByteArray}
    (h : (Window.mk info (x.regionAt order start)).EndsWith start (x.bytes order)) :
    x.HasHeader order start header ↔
      ∃ next, UnitHeader.decode ⟨info, x.regionAt order start⟩ start = .ok header next := by
  constructor
  · rintro ⟨bytes, rest, hcontent, hlayout, hroot⟩
    have hholds := h.holds
    rw [DelimitedUnit.bytes, hcontent, ← List.append_assoc] at hholds
    obtain ⟨next, hnext⟩ := UnitHeader.decode_of_layout hlayout (Window.holds_append.1 hholds).1
    refine ⟨next, hnext.trans ?_⟩
    rw [show (x.regionAt order start).format = x.format from rfl, ← hroot]
  · rintro ⟨next, hdecode⟩
    obtain ⟨bytes, hbytes, hlayout, hroot, -⟩ := UnitHeader.layout_of_decode hdecode
    have hcontent := h.append.2
    rw [Format.length_encodeLength] at hcontent
    obtain ⟨rest, hrest⟩ := hcontent.isPrefix hbytes
    exact ⟨bytes, rest, hrest.symm, hlayout, hroot⟩

end DelimitedUnit

/-- The units that a scan lists: those with a header, each where it lies and with the number of
units before it as its index. -/
inductive Lists (sections : DebugSections) (info : ByteArray) (order : ByteOrder) :
    Nat → Nat → List DelimitedUnit → List DebugUnit → Prop
  | nil {start index : Nat} : Lists sections info order start index [] []
  | unit {start index : Nat} {x : DelimitedUnit} {xs : List DelimitedUnit} {header : UnitHeader}
      {units : List DebugUnit} (hheader : x.HasHeader order start header)
      (h : Lists sections info order (start + (x.bytes order).length) (index + 1) xs units) :
      Lists sections info order start index (x :: xs)
        (x.unitAt sections info order start index header :: units)
  | skipped {start index : Nat} {x : DelimitedUnit} {xs : List DelimitedUnit}
      {units : List DebugUnit} (hnone : ∀ header, ¬ x.HasHeader order start header)
      (h : Lists sections info order (start + (x.bytes order).length) index xs units) :
      Lists sections info order start index (x :: xs) units

theorem exists_lists (sections : DebugSections) (info : ByteArray) (order : ByteOrder)
    (start index : Nat) (xs : List DelimitedUnit) :
    ∃ units, Lists sections info order start index xs units := by
  induction xs generalizing start index with
  | nil => exact ⟨[], .nil⟩
  | cons x xs ih =>
    by_cases h : ∃ header, x.HasHeader order start header
    · obtain ⟨header, hheader⟩ := h
      obtain ⟨units, hunits⟩ := ih (start + (x.bytes order).length) (index + 1)
      exact ⟨_, .unit hheader hunits⟩
    · obtain ⟨units, hunits⟩ := ih (start + (x.bytes order).length) index
      exact ⟨units, .skipped (not_exists.1 h) hunits⟩

namespace DelimitedUnit

variable {x : DelimitedUnit} {sections : DebugSections} {info : ByteArray}

theorem unit_eq (h : (Window.mk info (.whole info order)).Holds start (x.bytes order)) :
    Decoder.unit ⟨info, .whole info order⟩ start =
      .ok (x.regionAt order start) (start + (x.bytes order).length) :=
  unit_of_holds x.fits rfl h

theorem ofRegion_of_hasHeader {header : UnitHeader} (sections : DebugSections) (index : Nat)
    (h : (Window.mk info (.whole info order)).Holds start (x.bytes order))
    (hheader : x.HasHeader order start header) :
    DebugUnit.ofRegion index sections info (x.regionAt order start) =
      .ok (x.unitAt sections info order start index header) := by
  obtain ⟨next, hdecode⟩ := (hasHeader_iff (endsWith_regionAt h)).1 hheader
  exact DebugUnit.ofRegion_of_decode index sections hdecode

theorem ofRegion_of_not_hasHeader (sections : DebugSections) (index : Nat)
    (h : (Window.mk info (.whole info order)).Holds start (x.bytes order))
    (hnone : ∀ header, ¬ x.HasHeader order start header) :
    ∃ fault, DebugUnit.ofRegion index sections info (x.regionAt order start) = .error fault := by
  rw [DebugUnit.ofRegion]
  split
  · rename_i header next hdecode
    exact absurd ((hasHeader_iff (endsWith_regionAt h)).2 ⟨next, hdecode⟩) (hnone header)
  · exact ⟨_, rfl⟩

end DelimitedUnit

namespace Decoder

theorem region_eq (w : Window) (pos : Nat) : region w pos = .ok w.region pos := rfl

theorem exists_error_of_unsigned {width : Nat} (h : w.limit < pos + width) :
    ∃ fault next, unsigned width w pos = .error fault next := by
  have hbytes : bytes width w pos = .error (.truncated pos width (w.remaining pos)) pos := by
    rw [bytes, if_neg (Nat.not_le_of_lt h)]
  have hmap := bind_of_eq_error (fun xs => pure (w.region.order.decode xs)) hbytes
  exact ⟨_, _, (bind_of_eq_ok _ (region_eq w pos)).trans hmap⟩

theorem unsigned_of_holds {width n : Nat} {rest : List UInt8} (hn : n < 1 <<< (8 * width))
    (h : w.Holds pos (w.region.order.encode width n ++ rest)) :
    unsigned width w pos = .ok n (pos + width) := by
  have hread := reads_encode hn rfl (Window.holds_append.1 h).1
  rw [ByteOrder.length_encode] at hread
  exact hread

/-- Eight more bytes follow the escape of the wider format. -/
theorem unitLength_of_escape {next : Nat} (h : unsigned 4 w pos = .ok 0xffffffff next) :
    unitLength w pos =
      (unsigned 8 >>= fun n => pure (Format.bits64, min (n + 12) 0xffffffffffffffff)) w next := by
  rw [unitLength, bind_of_eq_ok _ h, if_neg (by decide), if_pos rfl]

/-- A length is read whatever it says, but no size is larger than a number can be. -/
theorem unitLength_of_writes {format : Format} {n : Nat} {rest : List UInt8}
    (hn : format.Writes n)
    (h : w.Holds pos (format.encodeLength w.region.order n ++ rest)) :
    ∃ next, unitLength w pos =
      .ok (format, min (n + format.lengthSize) 0xffffffffffffffff) next := by
  cases format with
  | bits32 =>
    have hfits : Format.bits32.Fits n := hn
    have hlt : n < 0xfffffff0 := hn
    have hlength := reads_unitLength hfits rfl (Window.holds_append.1 h).1
    have hmin : min (n + 4) 0xffffffffffffffff = n + 4 := Nat.min_eq_left (by omega)
    exact ⟨_, hmin.symm ▸ hlength⟩
  | bits64 =>
    have hn : n < 1 <<< (8 * 8) := hn
    rw [Format.encodeLength, List.append_assoc] at h
    have hescape := unsigned_of_holds (by decide) h
    have hnumber := (Window.holds_append.1 h).2
    rw [ByteOrder.length_encode] at hnumber
    exact ⟨_, (unitLength_of_escape hescape).trans
      (bind_of_eq_ok _ (unsigned_of_holds hn hnumber))⟩

theorem unitLength_of_reserved {length next : Nat} (h : unsigned 4 w pos = .ok length next)
    (hlow : 0xfffffff0 ≤ length) (hhigh : length < 0xffffffff) :
    unitLength w pos = .error (.reservedLength length) next := by
  rw [unitLength, bind_of_eq_ok _ h, if_neg (by omega), if_neg (by omega)]
  rfl

theorem exists_error_of_unitLength {format : Format} {size next : Nat}
    (h : unitLength w pos = .ok (format, size) next) (hsize : w.limit < pos + size) :
    ∃ fault next, unit w pos = .error fault next := by
  have hskip : skip size w pos = .error (.truncated pos size (w.remaining pos)) pos := by
    rw [skip, if_neg (Nat.not_le_of_lt hsize)]
  exact ⟨_, _, (unit_of_length h).trans (bind_of_eq_error _ hskip)⟩

end Decoder

theorem NoUnit.exists_error {tail : List UInt8} (h : NoUnit w.region.order tail)
    (hw : w.EndsWith pos tail) (hlt : pos < w.limit) (hlimit : w.limit < 1 <<< 63) :
    ∃ fault next, unit w pos = .error fault next := by
  have hend := hw.limit_eq
  cases h with
  | empty => exact absurd hlt (Nat.not_lt_of_le (Nat.le_of_eq hend))
  | cutLength h =>
    obtain ⟨fault, next, hlength⟩ : ∃ fault next, unsigned 4 w pos = .error fault next :=
      exists_error_of_unsigned (by omega)
    exact ⟨fault, next, unit_of_error (bind_of_eq_error _ hlength)⟩
  | cutLongLength h =>
    have hescape := unsigned_of_holds (by decide) hw.holds
    rw [List.length_append, ByteOrder.length_encode] at hend
    obtain ⟨fault, next, hlength⟩ : ∃ fault next, unsigned 8 w (pos + 4) = .error fault next :=
      exists_error_of_unsigned (by omega)
    refine ⟨fault, next, unit_of_error ?_⟩
    rw [unitLength_of_escape hescape]
    exact bind_of_eq_error _ hlength
  | @reserved length rest hlow hhigh =>
    have hword : length < 1 <<< (8 * 4) := Nat.lt_trans hhigh (by decide)
    have hlength := unsigned_of_holds hword hw.holds
    exact ⟨_, _, unit_of_error (unitLength_of_reserved hlength hlow hhigh)⟩
  | @beyond format n rest hn h =>
    rw [List.length_append, Format.length_encodeLength] at hend
    obtain ⟨next, hlength⟩ := unitLength_of_writes hn hw.holds
    have hbound : 1 <<< 63 < 0xffffffffffffffff := by decide
    exact exists_error_of_unitLength hlength (by omega)

namespace Format

theorem Writes.fits {format : Format} {n : Nat} (h : format.Writes n) (hn : n < 1 <<< 63) :
    format.Fits n := by
  cases format with
  | bits32 => exact h
  | bits64 => exact Nat.lt_trans (Nat.add_lt_add_right hn 12) (by decide)

end Format

/-- Behind a length there is as much as it says, or it says too much. -/
theorem noUnit_or_begins_of_writes (format : Format) {n : Nat} {rest : List UInt8}
    (hn : format.Writes n) (hrest : rest.length < 1 <<< 63) :
    NoUnit order (format.encodeLength order n ++ rest) ∨
      ∃ (x : DelimitedUnit) (after : List UInt8),
        format.encodeLength order n ++ rest = x.bytes order ++ after := by
  by_cases hle : n ≤ rest.length
  · have hlength : (rest.take n).length = n := List.length_take_of_le hle
    have hfits : format.Fits (rest.take n).length :=
      hlength.symm ▸ hn.fits (Nat.lt_of_le_of_lt hle hrest)
    refine .inr ⟨⟨format, rest.take n, hfits⟩, rest.drop n, ?_⟩
    rw [DelimitedUnit.bytes, hlength, List.append_assoc, List.take_append_drop]
  · exact .inl (.beyond hn (Nat.lt_of_not_le hle))

theorem noUnit_or_begins (order : ByteOrder) {bytes : List UInt8} (h : bytes.length < 1 <<< 63) :
    NoUnit order bytes ∨
      ∃ (x : DelimitedUnit) (after : List UInt8), bytes = x.bytes order ++ after := by
  by_cases hfour : bytes.length < 4
  · exact .inl (.cutLength hfour)
  obtain ⟨length, rest, rfl, hlength⟩ := ByteOrder.exists_encode order (Nat.le_of_not_lt hfour)
  rw [List.length_append] at h
  by_cases hshort : length < 0xfffffff0
  · exact noUnit_or_begins_of_writes .bits32 hshort (by omega)
  by_cases hescape : length = 0xffffffff
  · subst hescape
    by_cases height : rest.length < 8
    · exact .inl (.cutLongLength height)
    · obtain ⟨n, after, rfl, hn⟩ := ByteOrder.exists_encode order (Nat.le_of_not_lt height)
      rw [List.length_append] at h
      rw [← List.append_assoc]
      exact noUnit_or_begins_of_writes .bits64 hn (by omega)
  · have hlt : length < 1 <<< 32 := hlength
    have hmax : 1 <<< 32 = 0xffffffff + 1 := by decide
    exact .inl (.reserved (Nat.le_of_not_lt hshort) (by omega))

/-- All bytes are units that follow each other, up to where no unit begins. -/
theorem exists_units (order : ByteOrder) (bytes : List UInt8) (h : bytes.length < 1 <<< 63) :
    ∃ (xs : List DelimitedUnit) (tail : List UInt8),
      bytes = xs.flatMap (·.bytes order) ++ tail ∧ NoUnit order tail := by
  induction hn : bytes.length using Nat.strongRecOn generalizing bytes with
  | ind n ih =>
    rcases noUnit_or_begins order h with hnone | ⟨x, after, rfl⟩
    · exact ⟨[], bytes, rfl, hnone⟩
    · rw [List.length_append] at hn h
      have hpos := x.length_bytes_pos order
      obtain ⟨xs, tail, rfl, htail⟩ := ih after.length (by omega) after (by omega) rfl
      exact ⟨x :: xs, tail, by rw [List.flatMap_cons, List.append_assoc], htail⟩

namespace DebugInfo

variable {sections : DebugSections} {info : ByteArray} {before : Array DebugUnit}
  {tail : List UInt8}

theorem scan_of_noUnit (h : NoUnit w.region.order tail) (hw : w.EndsWith pos tail)
    (hlimit : w.limit < 1 <<< 63) : scan sections w pos before = before := by
  by_cases hlt : pos < w.limit
  · obtain ⟨fault, next, herror⟩ := h.exists_error hw hlt hlimit
    exact scan_of_error herror
  · rw [scan, if_neg hlt]

/-- A scan over units finds the ones with a header, however many have been found before. -/
theorem toList_scan {xs : List DelimitedUnit} {units : List DebugUnit} {index : Nat}
    (before : Array DebugUnit) (hindex : index = before.size)
    (h : (Window.mk info (.whole info order)).EndsWith start (xs.flatMap (·.bytes order) ++ tail))
    (htail : NoUnit order tail) (hsize : info.size < 1 <<< 63)
    (hlists : Lists sections info order start index xs units) :
    (scan sections ⟨info, .whole info order⟩ start before).toList = before.toList ++ units := by
  induction hlists generalizing before with
  | nil =>
    have hlimit : (Window.mk info (.whole info order)).limit < 1 <<< 63 :=
      Nat.lt_of_le_of_lt (Nat.min_le_right ..) hsize
    rw [scan_of_noUnit htail h hlimit, List.append_nil]
  | @unit start index x xs header units hheader _ ih =>
    subst hindex
    rw [List.flatMap_cons, List.append_assoc] at h
    obtain ⟨hbytes, hrest⟩ := h.append
    have hunit := DelimitedUnit.ofRegion_of_hasHeader sections before.size hbytes hheader
    rw [scan_of_unit (DelimitedUnit.lt_limit hbytes) (DelimitedUnit.unit_eq hbytes) hunit,
      ih _ (Array.size_push _).symm hrest, Array.toList_push, List.append_assoc]
    rfl
  | @skipped start index x xs units hnone _ ih =>
    subst hindex
    rw [List.flatMap_cons, List.append_assoc] at h
    obtain ⟨hbytes, hrest⟩ := h.append
    obtain ⟨fault, herror⟩ :=
      DelimitedUnit.ofRegion_of_not_hasHeader sections before.size hbytes hnone
    rw [scan_of_region (DelimitedUnit.lt_limit hbytes) (DelimitedUnit.unit_eq hbytes), herror]
    exact ih before rfl hrest

theorem ofSections_of_lists {xs : List DelimitedUnit} {units : List DebugUnit}
    (hinfo : sections.info = some info) (hsize : info.size < 1 <<< 63)
    (hbytes : info.data.toList = xs.flatMap (·.bytes order) ++ tail) (htail : NoUnit order tail)
    (hlists : Lists sections info order 0 0 xs units) :
    ofSections sections order = .ok { sections, units := units.toArray } := by
  have hscan := toList_scan #[] rfl (Window.endsWith_whole hbytes) htail hsize hlists
  rw [List.nil_append] at hscan
  rw [ofSections, hinfo, ← hscan]

/-- The units of a file are those with a header among the units that its debug information is
written as, for buffers of a size that there can be. All bytes are units up to where no unit begins,
so every scan ends. -/
theorem exists_ofSections_iff_lists (sections : DebugSections) (order : ByteOrder)
    (hinfo : sections.info = some info) (hsize : info.size < 1 <<< 63) :
    ∃ units : List DebugUnit,
      ofSections sections order = .ok { sections, units := units.toArray } ∧
      (∃ (xs : List DelimitedUnit) (tail : List UInt8),
        info.data.toList = xs.flatMap (·.bytes order) ++ tail ∧ NoUnit order tail) ∧
      ∀ (xs : List DelimitedUnit) (tail : List UInt8),
        info.data.toList = xs.flatMap (·.bytes order) ++ tail → NoUnit order tail →
          ∀ listed, Lists sections info order 0 0 xs listed ↔ listed = units := by
  obtain ⟨xs, tail, hbytes, htail⟩ := exists_units order info.data.toList hsize
  obtain ⟨units, hunits⟩ := exists_lists sections info order 0 0 xs
  have hok := ofSections_of_lists hinfo hsize hbytes htail hunits
  refine ⟨units, hok, ⟨xs, tail, hbytes, htail⟩, ?_⟩
  intro ys rest hbytes hrest
  have hunique : ∀ listed, Lists sections info order 0 0 ys listed → listed = units := by
    intro listed hlisted
    have hsame := (ofSections_of_lists hinfo hsize hbytes hrest hlisted).symm.trans hok
    injection hsame with hsame
    injection hsame with _ hsame
    exact List.toArray_inj hsame
  intro listed
  refine ⟨hunique listed, ?_⟩
  rintro rfl
  obtain ⟨others, hothers⟩ := exists_lists sections info order 0 0 ys
  rw [← hunique others hothers]
  exact hothers

def earlyUnit : DelimitedUnit where
  format := .bits32
  content := [4, 0, 1, 0, 0, 0, 8]
  fits := by change 7 < 0xfffffff0; decide

def brokenUnit : DelimitedUnit where
  format := .bits32
  content := [9, 0]
  fits := by change 2 < 0xfffffff0; decide

def typeUnit : DelimitedUnit where
  format := .bits64
  content := [5, 0, 2, 4, 3, 0, 0, 0, 0, 0, 0, 0, 1, 2, 3, 4, 5, 6, 7, 8, 40, 0, 0, 0, 0, 0, 0, 0]
  fits := by change 28 + 12 < 1 <<< 64; decide

/-- The three units, and a reserved length behind them. -/
def mixedInfo : ByteArray :=
  ⟨#[7, 0, 0, 0, 4, 0, 1, 0, 0, 0, 8,
    2, 0, 0, 0, 9, 0,
    255, 255, 255, 255, 28, 0, 0, 0, 0, 0, 0, 0,
    5, 0, 2, 4, 3, 0, 0, 0, 0, 0, 0, 0, 1, 2, 3, 4, 5, 6, 7, 8, 40, 0, 0, 0, 0, 0, 0, 0,
    240, 255, 255, 255, 0]⟩

theorem layout_earlyUnit :
    UnitHeader.Layout .little .bits32 (ByteOrder.little.decode [4, 0]) 0 (8 : UInt8).toNat
      (.ofNat (ByteOrder.little.decode [1, 0, 0, 0])) ([4, 0] ++ ([1, 0, 0, 0] ++ [8])) :=
  .early rfl (by decide) (by decide) rfl (by decide)

theorem extras_typeUnit :
    UnitHeader.Extras .bits64 (2 : UInt8).toNat
      ([1, 2, 3, 4, 5, 6, 7, 8] ++ [40, 0, 0, 0, 0, 0, 0, 0]) :=
  .type (.inl rfl) rfl rfl

theorem layout_typeUnit :
    UnitHeader.Layout .little .bits64 5 (2 : UInt8).toNat (4 : UInt8).toNat
      (.ofNat (ByteOrder.little.decode [3, 0, 0, 0, 0, 0, 0, 0]))
      ([5, 0] ++ ([2] ++ ([4] ++ ([3, 0, 0, 0, 0, 0, 0, 0] ++
        ([1, 2, 3, 4, 5, 6, 7, 8] ++ [40, 0, 0, 0, 0, 0, 0, 0]))))) :=
  .five rfl (by decide) rfl extras_typeUnit (by decide)

theorem hasHeader_earlyUnit (start : Nat) :
    earlyUnit.HasHeader .little start ⟨4, 0, 8, 1, start + 4 + 7⟩ :=
  ⟨earlyUnit.content, [], rfl, layout_earlyUnit, rfl⟩

theorem hasHeader_typeUnit (start : Nat) :
    typeUnit.HasHeader .little start ⟨5, 2, 4, 3, start + 12 + 28⟩ :=
  ⟨typeUnit.content, [], rfl, layout_typeUnit, rfl⟩

theorem not_hasHeader_brokenUnit (header : UnitHeader) :
    ¬ brokenUnit.HasHeader .little 11 header := by
  obtain ⟨version, unitType, addressSize, offset, root⟩ := header
  rintro ⟨bytes, rest, hcontent, hlayout, -⟩
  have hlength := congrArg List.length hcontent
  cases hlayout with
  | early hversion _ _ habbreviations _ | five hversion _ habbreviations _ _ =>
    simp only [List.length_append, hversion, habbreviations, brokenUnit, Format.offsetSize,
      List.length_cons, List.length_nil] at hlength
    omega

theorem exists_ofSections_iff_lists_mixedInfo :
    ∃ units : List DebugUnit,
      ofSections { info := some mixedInfo } .little =
        .ok { sections := { info := some mixedInfo }, units := units.toArray } ∧
      units.map (fun u => (u.index, u.header, u.region)) =
        [(0, ⟨4, 0, 8, 1, 11⟩, { start := 0, stop := 11, order := .little }),
          (1, ⟨5, 2, 4, 3, 57⟩,
            { start := 17, stop := 57, format := .bits64, order := .little
              addressSize := 4 })] := by
  obtain ⟨units, hok, -, hlists⟩ :=
    exists_ofSections_iff_lists { info := some mixedInfo } .little rfl (by decide)
  have htail : NoUnit .little (ByteOrder.little.encode 4 0xfffffff0 ++ [0]) :=
    .reserved (by decide) (by decide)
  have hmixed := (hlists [earlyUnit, brokenUnit, typeUnit] _ rfl htail _).1
    (.unit (hasHeader_earlyUnit 0)
      (.skipped not_hasHeader_brokenUnit (.unit (hasHeader_typeUnit 17) .nil)))
  subst hmixed
  exact ⟨_, hok, rfl⟩

end DebugInfo

end StackSurvey.Dwarf
