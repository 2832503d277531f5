import StackSurvey.Dwarf.DebugUnit
import StackSurvey.Proofs.Dwarf.NumberBytes

namespace StackSurvey.Dwarf

open Decoder

namespace UnitHeader

/-- What skeleton units and type units add to a header of version 5. -/
inductive Extras (format : Format) (unitType : Nat) : List UInt8 → Prop
  | skeleton {id : List UInt8} (htype : unitType = 4 ∨ unitType = 5) (hid : id.length = 8) :
      Extras format unitType id
  | type {signature offset : List UInt8} (htype : unitType = 2 ∨ unitType = 6)
      (hsignature : signature.length = 8) (hoffset : offset.length = format.offsetSize) :
      Extras format unitType (signature ++ offset)
  | none (htype : unitType ∉ [2, 4, 5, 6]) : Extras format unitType []

/-- The bytes of a header behind the length of its unit, for a version, a type of unit, an address
size and an offset of abbreviations. -/
inductive Layout (order : ByteOrder) (format : Format) :
    Nat → Nat → Nat → UInt64 → List UInt8 → Prop
  | early {version abbreviations : List UInt8} {addressSize : UInt8} (hversion : version.length = 2)
      (hlow : 2 ≤ order.decode version) (hhigh : order.decode version ≤ 4)
      (habbreviations : abbreviations.length = format.offsetSize)
      (hsize : isAddressSize addressSize.toNat = true) :
      Layout order format (order.decode version) 0 addressSize.toNat
        (.ofNat (order.decode abbreviations)) (version ++ (abbreviations ++ [addressSize]))
  | five {version abbreviations extras : List UInt8} {unitType addressSize : UInt8}
      (hversion : version.length = 2) (hfive : order.decode version = 5)
      (habbreviations : abbreviations.length = format.offsetSize)
      (hextras : Extras format unitType.toNat extras)
      (hsize : isAddressSize addressSize.toNat = true) :
      Layout order format 5 unitType.toNat addressSize.toNat
        (.ofNat (order.decode abbreviations))
        (version ++ ([unitType] ++ ([addressSize] ++ (abbreviations ++ extras))))

theorem Layout.isAddressSize_eq {order : ByteOrder} {format : Format}
    {version unitType addressSize : Nat} {abbreviationOffset : UInt64} {bytes : List UInt8}
    (h : Layout order format version unitType addressSize abbreviationOffset bytes) :
    isAddressSize addressSize = true := by
  cases h <;> assumption

variable {w : Window} {pos next : Nat}

theorem Extras.reads_skipExtras {r : Region} {unitType : Nat} {bytes : List UInt8}
    (h : Extras r.format unitType bytes) : (skipExtras unitType).Reads r bytes () := by
  unfold skipExtras
  cases h with
  | skeleton htype hid =>
    rw [if_pos htype, ← hid]
    exact reads_skip bytes
  | type htype hsignature hoffset =>
    rw [if_neg (by omega), if_pos htype, ← hsignature]
    exact (reads_skip _).bind (reads_offset_of_length hoffset).map
  | none htype =>
    simp only [List.mem_cons, List.not_mem_nil, or_false, not_or] at htype
    rw [if_neg (by omega), if_neg (by omega)]
    exact reads_pure ()

theorem extras_of_skipExtras {unitType : Nat} (hpos : pos ≤ w.limit)
    (h : skipExtras unitType w pos = .ok () next) :
    ∃ bytes, w.Holds pos bytes ∧ Extras w.region.format unitType bytes ∧
      next = pos + bytes.length := by
  unfold skipExtras at h
  split at h
  · obtain ⟨id, hholds, hid, rfl⟩ := holds_of_skip h
    exact ⟨id, hholds, .skeleton ‹_› hid, rfl⟩
  · split at h
    · obtain ⟨_, mid, h₁, h₂⟩ := bind_eq_ok h
      obtain ⟨signature, hsignature, hlength, rfl⟩ := holds_of_skip h₁
      obtain ⟨_, h₂, _⟩ := map_eq_ok h₂
      obtain ⟨offset, hoffset, hlength', _, rfl⟩ := holds_of_offset h₂
      refine ⟨signature ++ offset, ?_, .type ‹_› hlength hlength', ?_⟩
      · exact Window.holds_append.2 ⟨hsignature, hoffset⟩
      · rw [List.length_append, Nat.add_assoc]
    · cases h
      refine ⟨[], Window.holds_nil hpos, .none ?_, rfl⟩
      simp only [List.mem_cons, List.not_mem_nil, or_false, not_or]
      omega

/-- A header with a layout is decoded behind a length, whatever the length says. -/
theorem decode_of_layout {version unitType addressSize n : Nat} {abbreviationOffset : UInt64}
    {bytes : List UInt8}
    (hlayout : Layout w.region.order w.region.format version unitType addressSize abbreviationOffset
      bytes)
    (h : w.Holds pos (w.region.format.encodeLength w.region.order n ++ bytes)) :
    ∃ next, decode w pos = .ok
      { version, unitType, addressSize, abbreviationOffset
        rootOffset := pos + w.region.format.lengthSize + bytes.length } next := by
  obtain ⟨hlength, hbytes⟩ := Window.holds_append.1 h
  have hskip := reads_skipLength w.region.order n rfl hlength
  rw [Format.length_encodeLength] at hskip hbytes
  rw [decode, bind_of_eq_ok _ hskip]
  cases hlayout with
  | early hversion hlow hhigh habbreviations hsize =>
    obtain ⟨hfirst, hrest⟩ := Window.holds_append.1 hbytes
    obtain ⟨hsecond, hthird⟩ := Window.holds_append.1 hrest
    rw [bind_of_eq_ok _ (reads_unsigned_of_length hversion rfl hfirst), if_neg (by omega)]
    dsimp only
    rw [if_neg (by omega), bind_of_eq_ok _ (reads_offset_of_length habbreviations rfl hsecond),
      bind_of_eq_ok _ (reads_unsigned_one _ rfl hthird), pure_bind]
    dsimp only
    rw [if_neg (by rw [hsize]; exact Bool.false_ne_true), bind_of_eq_ok _ (position_eq w _)]
    simp only [List.length_append, Nat.add_assoc]
    exact ⟨_, rfl⟩
  | five hversion hfive habbreviations hextras hsize =>
    obtain ⟨hfirst, hrest⟩ := Window.holds_append.1 hbytes
    obtain ⟨hsecond, hrest⟩ := Window.holds_append.1 hrest
    obtain ⟨hthird, hrest⟩ := Window.holds_append.1 hrest
    obtain ⟨hfourth, hlast⟩ := Window.holds_append.1 hrest
    rw [bind_of_eq_ok _ (reads_unsigned_of_length hversion rfl hfirst), if_neg (by omega)]
    dsimp only
    rw [if_pos (by omega), bind_of_eq_ok _ (reads_unsigned_one _ rfl hsecond),
      bind_of_eq_ok _ (reads_unsigned_one _ rfl hthird),
      bind_of_eq_ok _ (reads_offset_of_length habbreviations rfl hfourth),
      bind_of_eq_ok _ (hextras.reads_skipExtras rfl hlast), pure_bind]
    dsimp only
    rw [if_neg (by rw [hsize]; exact Bool.false_ne_true), bind_of_eq_ok _ (position_eq w _)]
    simp only [List.length_append, Nat.add_assoc, hfive]
    exact ⟨_, rfl⟩

theorem isAddressSize_of_eq_ok {α : Type} {size : Nat} {d : Decoder α} {a : α}
    (h : (if (!isAddressSize size) = true then do
        let _ : Unit ← throw (.unsupportedAddressSize size)
        d
      else d) w pos = .ok a next) :
    isAddressSize size = true ∧ d w pos = .ok a next := by
  by_cases hsize : isAddressSize size = true
  · rw [if_neg (by rw [hsize]; exact Bool.false_ne_true)] at h
    exact ⟨hsize, h⟩
  · rw [if_pos (by simpa using hsize)] at h
    obtain ⟨_, _, hthrow, _⟩ := bind_eq_ok h
    cases hthrow

/-- A header that is decoded has a layout, and the root begins where it ends. -/
theorem layout_of_decode {header : UnitHeader} (h : decode w pos = .ok header next) :
    ∃ bytes, w.Holds (pos + w.region.format.lengthSize) bytes ∧
      Layout w.region.order w.region.format header.version header.unitType header.addressSize
        header.abbreviationOffset bytes ∧
      header.rootOffset = pos + w.region.format.lengthSize + bytes.length ∧
      header.rootOffset = next := by
  obtain ⟨_, _, hskip, h⟩ := bind_eq_ok h
  obtain ⟨_, _, hregion, hskip⟩ := bind_eq_ok hskip
  cases hregion
  obtain ⟨length, _, hlength, rfl⟩ := holds_of_skip hskip
  obtain ⟨_, _, hversion, h⟩ := bind_eq_ok h
  obtain ⟨version, hfirst, htwo, rfl, rfl⟩ := holds_of_unsigned hversion
  by_cases hrange : w.region.order.decode version < 2 ∨ 5 < w.region.order.decode version
  · rw [if_pos hrange] at h
    obtain ⟨_, _, hthrow, _⟩ := bind_eq_ok h
    cases hthrow
  rw [if_neg hrange] at h
  dsimp only at h
  rw [← hlength]
  by_cases hlate : 5 ≤ w.region.order.decode version
  · rw [if_pos hlate] at h
    obtain ⟨_, _, htype, h⟩ := bind_eq_ok h
    obtain ⟨unitType, hsecond, rfl, rfl⟩ := holds_of_unsigned_one htype
    obtain ⟨_, _, hsize, h⟩ := bind_eq_ok h
    obtain ⟨addressSize, hthird, rfl, rfl⟩ := holds_of_unsigned_one hsize
    obtain ⟨_, _, hoffset, h⟩ := bind_eq_ok h
    obtain ⟨abbreviations, hfourth, habbreviations, rfl, rfl⟩ := holds_of_offset hoffset
    obtain ⟨_, _, hskipped, h⟩ := bind_eq_ok h
    obtain ⟨extras, hfifth, hextras, rfl⟩ := extras_of_skipExtras hfourth.le_limit hskipped
    rw [pure_bind] at h
    dsimp only at h
    obtain ⟨hsize, h⟩ := isAddressSize_of_eq_ok h
    cases h
    have hfive : w.region.order.decode version = 5 := by omega
    rw [hfive]
    refine ⟨_, ?_, .five htwo hfive habbreviations hextras hsize, ?_, rfl⟩
    · simp only [Window.holds_append]
      exact ⟨hfirst, hsecond, hthird, hfourth, hfifth⟩
    · simp only [List.length_append, List.length_singleton, Nat.add_assoc]
  · rw [if_neg hlate] at h
    obtain ⟨_, _, hoffset, h⟩ := bind_eq_ok h
    obtain ⟨abbreviations, hsecond, habbreviations, rfl, rfl⟩ := holds_of_offset hoffset
    obtain ⟨_, _, hsize, h⟩ := bind_eq_ok h
    obtain ⟨addressSize, hthird, rfl, rfl⟩ := holds_of_unsigned_one hsize
    rw [pure_bind] at h
    dsimp only at h
    obtain ⟨hsize, h⟩ := isAddressSize_of_eq_ok h
    cases h
    have hlow : 2 ≤ w.region.order.decode version := by omega
    have hhigh : w.region.order.decode version ≤ 4 := by omega
    refine ⟨_, ?_, .early htwo hlow hhigh habbreviations hsize, ?_, rfl⟩
    · simp only [Window.holds_append]
      exact ⟨hfirst, hsecond, hthird⟩
    · simp only [List.length_append, List.length_singleton, Nat.add_assoc]

end UnitHeader

end StackSurvey.Dwarf
