import StackSurvey.Dwarf.RangeList
import StackSurvey.Proofs.Dwarf.LoneUnit
import StackSurvey.Proofs.Dwarf.NumberBytes
import StackSurvey.Proofs.Dwarf.Truncation

namespace StackSurvey.Dwarf

open Decoder

namespace RangeList

/-- An item of a list of addresses of `size` bytes. -/
inductive Item (size : Nat) where
  /-- Two zeros would end the list, and the greatest first address would select a base. -/
  | range (first second : Nat) (unmarked : first < 1 <<< (8 * size) - 1)
      (fits : second < 1 <<< (8 * size)) (goesOn : ¬ (first = 0 ∧ second = 0))
  | base (address : Nat) (fits : address < 1 <<< (8 * size))

variable {size : Nat}

namespace Item

def bytes (order : ByteOrder) : Item size → List UInt8
  | range first second _ _ _ => order.encode size first ++ order.encode size second
  | base address _ => order.encode size (1 <<< (8 * size) - 1) ++ order.encode size address

/-- The base that an item selects. -/
def base? : Item size → Option UInt64
  | range .. => none
  | base address _ => some (.ofNat address)

/-- The range that an item adds under a base, unless it is empty. -/
def range? (base : UInt64) : Item size → Option (UInt64 × UInt64)
  | .range first second _ _ _ =>
    if first < second then some (base + .ofNat first, base + .ofNat second) else none
  | .base .. => none

end Item

/-- The two zeros that end a list. -/
def stop (size : Nat) (order : ByteOrder) : List UInt8 := order.encode size 0 ++ order.encode size 0

theorem encoding_ne_nil (hsize : 0 < size) (order : ByteOrder) {items : List (Item size)}
    {tail : List UInt8} (h : items ≠ [] ∨ tail ≠ []) :
    items.flatMap (Item.bytes order) ++ tail ≠ [] := by
  intro hnil
  obtain ⟨hitems, htail⟩ := List.append_eq_nil_iff.1 hnil
  obtain ⟨item, rest, rfl⟩ := List.exists_cons_of_ne_nil (h.resolve_right (not_not_intro htail))
  have hitem : item.bytes order = [] :=
    List.flatMap_eq_nil_iff.1 hitems item (List.mem_cons_self ..)
  have hlength := congrArg List.length hitem
  cases item with
  | range | base =>
    rw [Item.bytes, List.length_append, ByteOrder.length_encode] at hlength
    exact absurd hlength (Nat.ne_of_gt (Nat.add_pos_left hsize _))

/-- The base that items select last, or the one before them. -/
def baseAfter (base : UInt64) (items : List (Item size)) : UInt64 :=
  (items.filterMap Item.base?).getLast?.getD base

/-- The ranges of items, each under the base selected last before it. -/
def ranges (base : UInt64) (items : List (Item size)) : List (UInt64 × UInt64) :=
  items.zipIdx.filterMap fun x => x.1.range? (baseAfter base (items.take x.2))

theorem baseAfter_cons (base : UInt64) (item : Item size) (items : List (Item size)) :
    baseAfter base (item :: items) = baseAfter (item.base?.getD base) items := by
  unfold baseAfter
  cases h : item.base? with
  | none => rw [List.filterMap_cons_none h, Option.getD_none]
  | some address =>
    rw [List.filterMap_cons_some h, List.getLast?_cons, Option.getD_some, Option.getD_some]

theorem ranges_cons (base : UInt64) (item : Item size) (items : List (Item size)) :
    ranges base (item :: items) =
      (item.range? base).toList ++ ranges (item.base?.getD base) items := by
  have hrest : (items.zipIdx 1).filterMap
      (fun x => x.1.range? (baseAfter base ((item :: items).take x.2))) =
        ranges (item.base?.getD base) items := by
    rw [List.zipIdx_succ, List.filterMap_map]
    congr 1
    funext x
    exact congrArg x.1.range? (baseAfter_cons ..)
  rw [ranges, List.zipIdx_cons, ← hrest]
  cases h : item.range? base with
  | none => exact List.filterMap_cons_none h
  | some range => exact List.filterMap_cons_some h

/-- The list read so far with one more item. -/
def Partial.extend (s : Partial) (item : Item size) : Partial where
  base := item.base?.getD s.base
  ranges := s.ranges ++ (item.range? s.base).toList.toArray

theorem add_marker (s : Partial) {address : Nat} (fits : address < 1 <<< (8 * size)) :
    s.add size (marker size) (.ofNat address) = s.extend (.base address fits) := by
  rw [Partial.add, if_pos rfl, Partial.extend, Item.range?, Option.toList_none, Array.append_empty]
  rfl

theorem bound_pos (size : Nat) : 0 < 1 <<< (8 * size) := by
  rw [Nat.one_shiftLeft]
  exact Nat.two_pow_pos _

theorem marker_lt (size : Nat) : 1 <<< (8 * size) - 1 < 1 <<< (8 * size) :=
  Nat.sub_lt (bound_pos size) Nat.one_pos

section

variable (hsize : isAddressSize size = true)

include hsize

theorem toNat_ofNat_address {n : Nat} (h : n < 1 <<< (8 * size)) : (UInt64.ofNat n).toNat = n :=
  toNat_ofNat_of_width_le h (bounds_of_isAddressSize hsize).2

theorem toNat_marker : (marker size).toNat = 1 <<< (8 * size) - 1 :=
  toNat_ofNat_address hsize (marker_lt size)

theorem one_lt_bound : 1 < 1 <<< (8 * size) := by
  have := (bounds_of_isAddressSize hsize).1
  rw [Nat.one_shiftLeft]
  exact Nat.one_lt_two_pow (by omega)

theorem add_range (s : Partial) {first second : Nat} (unmarked : first < 1 <<< (8 * size) - 1)
    (fits : second < 1 <<< (8 * size)) (goesOn : ¬ (first = 0 ∧ second = 0)) :
    s.add size (.ofNat first) (.ofNat second) =
      s.extend (.range first second unmarked fits goesOn) := by
  have hfirst := toNat_ofNat_address hsize (Nat.lt_of_lt_of_le unmarked (Nat.sub_le ..))
  have hsecond := toNat_ofNat_address hsize fits
  have hmarker : UInt64.ofNat first ≠ marker size := by
    intro heq
    have htoNat := congrArg UInt64.toNat heq
    rw [hfirst, toNat_marker hsize] at htoNat
    exact Nat.ne_of_lt unmarked htoNat
  have hlt : UInt64.ofNat first < UInt64.ofNat second ↔ first < second := by
    rw [UInt64.lt_iff_toNat_lt, hfirst, hsecond]
  rw [Partial.add, if_neg hmarker, Partial.extend]
  simp only [hlt, Item.range?, Item.base?, Option.getD_none]
  split
  · rw [Array.push_eq_append]
    rfl
  · rw [Option.toList_none, Array.append_empty]

theorem reads_item {r : Region} (hr : r.addressSize = size) (s : Partial) (item : Item size) :
    (decodeItem size s).Reads r (item.bytes r.order) (.inl (s.extend item)) := by
  subst hr
  cases item with
  | range first second unmarked fits goesOn =>
    have hbound := Nat.lt_of_lt_of_le unmarked (Nat.sub_le ..)
    refine (reads_address hsize hbound).bind ((reads_address hsize fits).bind_nil ?_)
    have hend : ¬ (UInt64.ofNat first = 0 ∧ UInt64.ofNat second = 0) := by
      rintro ⟨hfirst, hsecond⟩
      have hfirst := congrArg UInt64.toNat hfirst
      have hsecond := congrArg UInt64.toNat hsecond
      rw [toNat_ofNat_address hsize hbound] at hfirst
      rw [toNat_ofNat_address hsize fits] at hsecond
      exact goesOn ⟨hfirst, hsecond⟩
    rw [if_neg hend, add_range hsize s unmarked fits goesOn]
    exact reads_pure _
  | base address fits =>
    refine (reads_address hsize (marker_lt _)).bind ((reads_address hsize fits).bind_nil ?_)
    have hend : ¬ (marker r.addressSize = 0 ∧ UInt64.ofNat address = 0) := by
      rintro ⟨hmarker, _⟩
      have htoNat := congrArg UInt64.toNat hmarker
      rw [toNat_marker hsize] at htoNat
      exact Nat.sub_ne_zero_of_lt (one_lt_bound hsize) htoNat
    rw [← marker, if_neg hend, add_marker s fits]
    exact reads_pure _

theorem reads_stop {r : Region} (hr : r.addressSize = size) (s : Partial) :
    (decodeItem size s).Reads r (stop size r.order) (.inr s.ranges.toList) := by
  subst hr
  have hzero := bound_pos r.addressSize
  refine (reads_address hsize hzero).bind ((reads_address hsize hzero).bind_nil ?_)
  rw [if_pos ⟨rfl, rfl⟩]
  exact reads_pure _

/-- Items and the zeros behind them are read as the ranges of the items. -/
theorem reads_items {r : Region} (hr : r.addressSize = size) (items : List (Item size))
    (s : Partial) :
    (iterate (decodeItem size) (advances_decodeItem size) s).Reads r
      (items.flatMap (Item.bytes r.order) ++ stop size r.order)
      (s.ranges.toList ++ ranges s.base items) := by
  induction items generalizing s with
  | nil =>
    intro w pos hw h
    rw [iterate_of_inr (reads_stop hsize hr s hw h), ranges, List.zipIdx_nil, List.filterMap_nil,
      List.append_nil]
    rfl
  | cons item items ih =>
    intro w pos hw h
    rw [List.flatMap_cons, List.append_assoc] at h ⊢
    obtain ⟨hitem, hrest⟩ := Window.holds_append.1 h
    rw [iterate_of_inl (reads_item hsize hr s item hw hitem), ih (s.extend item) hw hrest,
      ranges_cons, List.length_append, Nat.add_assoc]
    simp [Partial.extend]

/-- Where fewer bytes than an address are left, an address is missing. -/
theorem address_of_short {w : Window} {pos : Nat} {tail : List UInt8}
    (hw : w.region.addressSize = size) (h : w.EndsWith pos tail) (hshort : tail.length < size) :
    address w pos = .error (.truncated pos size tail.length) pos := by
  obtain ⟨hpos, hle⟩ := bounds_of_isAddressSize hsize
  have hlimit : ¬ pos + size ≤ w.limit := by
    rw [h.limit_eq]
    omega
  have hremaining : w.remaining pos = tail.length := by
    rw [Window.remaining, h.limit_eq, Nat.add_sub_cancel_left]
  have hbytes : bytes size w pos = .error (.truncated pos size tail.length) pos := by
    rw [bytes, if_neg hlimit, hremaining]
  have hregion : region w pos = .ok w.region pos := rfl
  have hunsigned : unsigned size w pos = .error (.truncated pos size tail.length) pos := by
    rw [unsigned, bind_of_eq_ok _ hregion]
    exact bind_of_eq_error (fun read => pure (w.region.order.decode read)) hbytes
  rw [address, bind_of_eq_ok _ hregion, hw, if_pos hsize, sized, if_neg (by omega)]
  exact bind_of_eq_error (fun n => pure (UInt64.ofNat n)) hunsigned

/-- Where an item is cut off, the first of its addresses that is not complete is missing. -/
theorem decodeItem_of_short {w : Window} {pos : Nat} {tail : List UInt8}
    (hw : w.region.addressSize = size) (h : w.EndsWith pos tail) (hshort : tail.length < 2 * size)
    (s : Partial) :
    ∃ next, decodeItem size s w pos =
      .error (.truncated (w.limit - tail.length % size) size (tail.length % size)) next := by
  have hlimit := h.limit_eq
  by_cases hfirst : tail.length < size
  · rw [Nat.mod_eq_of_lt hfirst, hlimit, Nat.add_sub_cancel]
    exact ⟨pos, bind_of_eq_error _ (address_of_short hsize hw h hfirst)⟩
  · obtain ⟨first, rest, rfl, hfits⟩ := w.region.order.exists_encode (Nat.le_of_not_lt hfirst)
    obtain ⟨hhead, hrest⟩ := h.append
    rw [List.length_append, ByteOrder.length_encode] at hlimit hfirst hshort
    rw [ByteOrder.length_encode] at hrest
    have hmod : (size + rest.length) % size = rest.length := by
      rw [Nat.add_mod_left, Nat.mod_eq_of_lt (by omega)]
    have hread : address w pos = .ok (.ofNat first) (pos + size) := by
      subst hw
      have hread := reads_address hsize hfits rfl hhead
      rw [ByteOrder.length_encode] at hread
      exact hread
    rw [List.length_append, ByteOrder.length_encode, hmod, hlimit, ← Nat.add_assoc,
      Nat.add_sub_cancel]
    refine ⟨pos + size, ?_⟩
    rw [decodeItem, bind_of_eq_ok _ hread]
    exact bind_of_eq_error _ (address_of_short hsize hw hrest (by omega))

/-- Items that are not followed by the end of a list are not read. -/
theorem items_of_short {w : Window} {pos : Nat} {tail : List UInt8} {items : List (Item size)}
    (hw : w.region.addressSize = size)
    (h : w.EndsWith pos (items.flatMap (Item.bytes w.region.order) ++ tail))
    (hshort : tail.length < 2 * size) (s : Partial) :
    ∃ next, iterate (decodeItem size) (advances_decodeItem size) s w pos =
      .error (.truncated (w.limit - tail.length % size) size (tail.length % size)) next := by
  induction items generalizing pos s with
  | nil =>
    obtain ⟨next, hstep⟩ := decodeItem_of_short hsize hw h hshort s
    refine ⟨next, ?_⟩
    rw [iterate_eq_bind]
    exact bind_of_eq_error _ hstep
  | cons item items ih =>
    rw [List.flatMap_cons, List.append_assoc] at h
    obtain ⟨hitem, hrest⟩ := h.append
    rw [iterate_of_inl (reads_item hsize hw s item rfl hitem)]
    exact ih hrest (s.extend item)

end

end RangeList

namespace DebugUnit

open RangeList

variable {u : DebugUnit} (hsize : isAddressSize u.header.addressSize = true) {data : ByteArray}
  (hdata : u.sections.ranges = some data) {items : List (Item u.header.addressSize)}
  {offset : UInt64}

include hsize hdata

theorem rangeList_of_holds (base : UInt64)
    (h : (Window.mk data (.whole data u.region.order)).Holds offset.toNat
      (items.flatMap (Item.bytes u.region.order) ++ stop u.header.addressSize u.region.order)) :
    u.rangeList offset base = .ok (ranges base items) := by
  let w : Window :=
    { data
      region := { Region.whole data u.region.order with addressSize := u.header.addressSize } }
  have hread := reads_items (r := w.region) hsize rfl items { base } rfl ⟨h.le_limit, h.slice_eq⟩
  refine DebugSections.decodeAt_of_holds hdata ?_ h hread
  apply encoding_ne_nil (bounds_of_isAddressSize hsize).1
  refine .inr (List.ne_nil_of_length_pos ?_)
  rw [stop, List.length_append, ByteOrder.length_encode]
  exact Nat.add_pos_left (bounds_of_isAddressSize hsize).1 _

theorem rangeList_of_endsWith (base : UInt64) {tail : List UInt8} (hne : items ≠ [] ∨ tail ≠ [])
    (hshort : tail.length < 2 * u.header.addressSize)
    (h : (Window.mk data (.whole data u.region.order)).EndsWith offset.toNat
      (items.flatMap (Item.bytes u.region.order) ++ tail)) :
    u.rangeList offset base =
      .error (.truncated (data.size - tail.length % u.header.addressSize) u.header.addressSize
        (tail.length % u.header.addressSize)) := by
  let w : Window :=
    { data
      region := { Region.whole data u.region.order with addressSize := u.header.addressSize } }
  have hends : w.EndsWith offset.toNat (items.flatMap (Item.bytes u.region.order) ++ tail) :=
    ⟨⟨h.holds.le_limit, h.holds.slice_eq⟩, h.limit_eq⟩
  obtain ⟨next, hread⟩ := items_of_short hsize rfl hends hshort { base }
  have hlimit : w.limit = data.size := Nat.min_self data.size
  have hlt : offset.toNat < data.size := by
    have hrest := List.length_pos_iff.2
      (encoding_ne_nil (bounds_of_isAddressSize hsize).1 u.region.order hne)
    have hend := hends.limit_eq
    omega
  rw [hlimit] at hread
  have hdecode : RangeList.decode u.header.addressSize base ⟨data, .whole data u.region.order⟩
      offset.toNat = _ := hread
  have hsection : u.sections.get? .ranges = some data := hdata
  rw [rangeList, DebugSections.decodeAt, hsection]
  simp only [hlt, if_true]
  rw [hdecode]

omit hsize hdata in
theorem endsWith_ranges {before rest : List UInt8} (hoffset : offset.toNat = before.length)
    (h : data.data.toList = before ++ rest) :
    (Window.mk data (.whole data u.region.order)).EndsWith offset.toNat rest := by
  have hwhole : (Window.mk data (.whole data u.region.order)).EndsWith 0 (before ++ rest) :=
    Window.endsWith_whole h
  have hrest := hwhole.append.2
  rw [Nat.zero_add, ← hoffset] at hrest
  exact hrest

/-- A list of items is read as their ranges wherever two zeros follow it, whatever follows these.
Where a section ends before two zeros, the address that it ends in is missing. -/
theorem rangeList_items (before : List UInt8) (items : List (Item u.header.addressSize))
    (hoffset : offset.toNat = before.length) (base : UInt64) :
    let size := u.header.addressSize
    let order := u.region.order
    (∀ after, data.data.toList =
        before ++ (items.flatMap (Item.bytes order) ++ stop size order ++ after) →
      u.rangeList offset base = .ok (ranges base items)) ∧
    (∀ tail, (items ≠ [] ∨ tail ≠ []) → tail.length < 2 * size →
      data.data.toList = before ++ (items.flatMap (Item.bytes order) ++ tail) →
      u.rangeList offset base =
        .error (.truncated (data.size - tail.length % size) size (tail.length % size))) := by
  intro size order
  constructor
  · intro after h
    exact rangeList_of_holds hsize hdata base (endsWith_ranges hoffset h).append.1
  · intro tail hne hshort h
    exact rangeList_of_endsWith hsize hdata base hne hshort (endsWith_ranges hoffset h)

end DebugUnit

namespace RangeList

/-- The abbreviation of entries with a range list. -/
def listedLeaf : SpelledAbbreviation :=
  .inBytes 12 0x0b false [(0x55, .secOffset)] (by decide)

/-- A unit with addresses of two bytes, the high one first. Its root names the list at offset 1. -/
def narrowUnit (ranges : ByteArray) : LoneUnit where
  order := .big
  addressSize := 2
  abbreviations := [listedLeaf]
  entries := [12, 0, 0, 0, 1]
  others := { ranges := some ranges }

/-- A range under the base of the unit, then a base with a range that wraps around it, and one that
ends before it begins. -/
def rebasedItems : List (Item 2) :=
  [.range 0x10 0x20 (by decide) (by decide) (by decide), .base 0xfff0 (by decide),
    .range 0 0xfffe (by decide) (by decide) (by decide),
    .range 0x30 0x20 (by decide) (by decide) (by decide)]

/-- A section with a byte before these items and some behind them. -/
def rebasedRanges (rest : List UInt8) : ByteArray :=
  ⟨([7, 0, 0x10, 0, 0x20, 0xff, 0xff, 0xff, 0xf0, 0, 0, 0xff, 0xfe, 0, 0x30, 0, 0x20]
    ++ rest).toArray⟩

theorem rangeList_items_rebasedItems :
    let terminated := narrowUnit (rebasedRanges [0, 0, 0, 0, 9])
    let cut := narrowUnit (rebasedRanges [0, 0, 0])
    (∃ d, DebugInfo.ofSections terminated.sections .big = .ok d ∧
      d.units[0]? = some terminated.unit) ∧
    (∃ d, DebugInfo.ofSections cut.sections .big = .ok d ∧ d.units[0]? = some cut.unit) ∧
      isAddressSize terminated.unit.header.addressSize = true ∧
      terminated.unit.rangeList 1 0xfffffffffffffff0 = .ok [(0, 0x10), (0xfff0, 0x1ffee)] ∧
      cut.unit.rangeList 1 0xfffffffffffffff0 = .error (.truncated 19 2 1) := by
  intro terminated cut
  have hoffset : (1 : UInt64).toNat = ([7] : List UInt8).length := rfl
  have hterminated : (rebasedRanges [0, 0, 0, 0, 9]).data.toList =
      [7] ++ (rebasedItems.flatMap (Item.bytes .big) ++ stop 2 .big ++ [9]) := rfl
  have hcut : (rebasedRanges [0, 0, 0]).data.toList =
      [7] ++ (rebasedItems.flatMap (Item.bytes .big) ++ [0, 0, 0]) := rfl
  refine ⟨terminated.exists_ofSections, cut.exists_ofSections, rfl, ?_, ?_⟩
  · have hranges : ranges 0xfffffffffffffff0 rebasedItems = [(0, 0x10), (0xfff0, 0x1ffee)] := by
      decide
    rw [← hranges]
    exact (DebugUnit.rangeList_items (u := terminated.unit) rfl rfl [7] rebasedItems hoffset _).1
      [9] hterminated
  · have hsize : cut.unit.header.addressSize = 2 := rfl
    have hranges := (DebugUnit.rangeList_items (u := cut.unit) rfl rfl [7] rebasedItems hoffset
      0xfffffffffffffff0).2 [0, 0, 0] (.inr (by decide)) (by decide) hcut
    rw [hsize] at hranges
    exact hranges

end RangeList

end StackSurvey.Dwarf
