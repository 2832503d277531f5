import StackSurvey.Proofs.Dwarf.AbbreviationTable
import StackSurvey.Proofs.Dwarf.DelimitedUnits
import StackSurvey.Proofs.Dwarf.ValueExtent

namespace StackSurvey

/-- A predicate that holds of the first items of an array and of no others keeps these. -/
theorem filter_eq_take {α : Type} {p : α → Bool} {xs : Array α} {n : Nat}
    (h : ∀ i (hi : i < xs.size), i < n ↔ p xs[i] = true) :
    xs.toList.filter p = xs.toList.take n := by
  have hbelow : ∀ x ∈ xs.toList.take n, p x = true := by
    intro x hx
    obtain ⟨i, hi, rfl⟩ := List.mem_take_iff_getElem.1 hx
    have hi := Nat.lt_min.1 hi
    exact (h i hi.2).1 hi.1
  have habove : ∀ x ∈ xs.toList.drop n, ¬ p x = true := by
    intro x hx hpx
    obtain ⟨i, hi, rfl⟩ := List.mem_drop_iff_getElem.1 hx
    have hsize : n + i < xs.size := Nat.add_comm .. ▸ hi
    have hlt := (h _ hsize).2 hpx
    omega
  have hsplit := List.take_append_drop n xs.toList
  calc xs.toList.filter p = (xs.toList.take n ++ xs.toList.drop n).filter p := by rw [hsplit]
    _ = xs.toList.take n := by
      rw [List.filter_append, List.filter_eq_self.2 hbelow, List.filter_eq_nil_iff.2 habove,
        List.append_nil]

end StackSurvey

namespace StackSurvey.Dwarf

open Decoder

variable {w : Window} {pos next width : Nat}

theorem Decoder.exists_encode_of_skip (hle : width ≤ 8) (h : skip width w pos = .ok () next) :
    ∃ n : UInt64, n.toNat < 1 <<< (8 * width) ∧
      w.Holds pos (w.region.order.encode width n.toNat) := by
  obtain ⟨bytes, hholds, rfl, -⟩ := holds_of_skip h
  have hlt := w.region.order.decode_lt bytes
  have htoNat := toNat_ofNat_of_width_le hlt hle
  refine ⟨.ofNat (w.region.order.decode bytes), ?_, ?_⟩
  · rwa [htoNat]
  · rwa [htoNat, ByteOrder.encode_decode]

theorem Form.writesDistance_of_skip {form : Form} {version : Nat}
    (hform : form ∈ [.ref1, .ref2, .ref4, .ref8, .refUdata])
    (h : form.extent.skip version w pos = .ok () next) :
    ∃ distance bytes, form.WritesDistance w.region.order distance bytes ∧ w.Holds pos bytes := by
  by_cases hgroup : form = .refUdata
  · subst hgroup
    obtain ⟨_, _, h, -⟩ := bind_eq_ok h
    obtain ⟨group, h, -⟩ := map_eq_ok h
    obtain ⟨hholds, hgroup, -⟩ := holds_of_leb128 h
    exact ⟨_, group, .group hgroup rfl, hholds⟩
  · obtain ⟨width, hwidth⟩ : ∃ width, form.distanceWidth? = some width := by
      simp only [List.mem_cons, List.not_mem_nil, or_false, hgroup] at hform
      rcases hform with rfl | rfl | rfl | rfl <;> exact ⟨_, rfl⟩
    obtain ⟨hextent, -, hle⟩ := extent_of_distanceWidth? hwidth
    rw [hextent] at h
    obtain ⟨distance, hfits, hholds⟩ := exists_encode_of_skip hle h
    exact ⟨distance, _, .fixed hwidth hfits, hholds⟩

namespace DebugUnit

variable {index : Nat} {sections : DebugSections} {info : ByteArray} {r : Region} {u : DebugUnit}

theorem isAddressSize_of_ofRegion (h : ofRegion index sections info r = .ok u) :
    isAddressSize u.region.addressSize = true := by
  obtain ⟨header, next, hdecode, rfl⟩ := exists_decode_of_ofRegion h
  obtain ⟨_, -, hlayout, -⟩ := UnitHeader.layout_of_decode hdecode
  exact hlayout.isAddressSize_eq

theorem index_of_ofRegion (h : ofRegion index sections info r = .ok u) : u.index = index := by
  obtain ⟨header, next, -, rfl⟩ := exists_decode_of_ofRegion h
  rfl

end DebugUnit

namespace Attribute

variable {d : DebugInfo} {u : DebugUnit} {a : Attribute} {k stop : Nat}

/-- A local reference states a distance, and leads as far into its unit if an entry may begin there.
Otherwise it leads nowhere; a sum of more than a word is cut off in the fault. -/
structure LeadsLocally (d : DebugInfo) (u : DebugUnit) (a : Attribute) (distance : UInt64) :
    Prop where
  writes : ∃ bytes, a.form.WritesDistance u.region.order distance bytes ∧
    u.window.Holds a.offset bytes
  localReference_eq : a.localReference u =
    if u.offset + distance.toNat < 1 <<< 64 ∧ u.containsOffset (u.offset + distance.toNat) = true
    then .ok (u.offset + distance.toNat)
    else .error (.invalidOffset .info ((u.offset + distance.toNat) % (1 <<< 64)))
  reference_eq : a.reference d u = (a.localReference u).map (EntryPlace.mk u.index)

/-- A reference across units states an offset, and leads to it in the unit that has entries
there. -/
structure LeadsAcross (d : DebugInfo) (u : DebugUnit) (a : Attribute) (target : UInt64) :
    Prop where
  fits : target.toNat < 1 <<< (8 * unitReferenceSize u.region u.header.version)
  holds : u.window.Holds a.offset
    (u.region.order.encode (unitReferenceSize u.region u.header.version) target.toNat)
  reference_eq : ∀ v ∈ d.units, v.containsOffset target.toNat = true →
    d.units[v.index]? = some v ∧ a.reference d u = .ok ⟨v.index, target.toNat⟩

theorem ofSpec_of_ne {spec : AttributeSpec} (h : spec.form ≠ .indirect) (pos : Nat) :
    ofSpec u spec pos = .ok ⟨spec.name, spec.form, pos, spec.implicitConst⟩ :=
  ofSpec_of_follow (by rw [Form.follow_of_ne h]; rfl)

/-- A sum that is cut off is less than the offset of the unit. -/
theorem localReference_eq_of_distance {distance : UInt64} (hroot : u.offset ≤ u.header.rootOffset)
    (h : a.distance u = .ok distance) :
    a.localReference u =
      if u.offset + distance.toNat < 1 <<< 64 ∧
          u.containsOffset (u.offset + distance.toNat) = true
      then .ok (u.offset + distance.toNat)
      else .error (.invalidOffset .info ((u.offset + distance.toNat) % (1 <<< 64))) := by
  by_cases hword : u.offset + distance.toNat < 1 <<< 64
  · rw [localReference_of_distance h hword, Nat.mod_eq_of_lt hword]
    simp only [hword, true_and]
  · have htarget : (UInt64.ofNat u.offset + distance).toNat =
        (u.offset + distance.toNat) % (1 <<< 64) := by
      rw [UInt64.toNat_add, UInt64.toNat_ofNat']
      simp only [Nat.one_shiftLeft]
      omega
    have hbefore : (u.offset + distance.toNat) % (1 <<< 64) < u.header.rootOffset := by
      have := distance.toNat_lt
      simp only [Nat.one_shiftLeft] at hword ⊢
      omega
    have hout : u.containsOffset ((u.offset + distance.toNat) % (1 <<< 64)) = false := by
      rw [DebugUnit.containsOffset, decide_eq_false (Nat.not_le.2 hbefore), Bool.false_and]
    rw [if_neg fun h => hword h.1, localReference, h]
    dsimp only [bind, Except.bind]
    rw [htarget, hout]
    rfl

theorem exists_leadsLocally (d : DebugInfo) (hroot : u.offset ≤ u.header.rootOffset)
    (ha : a.EndsBy u k) (hform : a.form ∈ [.ref1, .ref2, .ref4, .ref8, .refUdata]) :
    ∃ distance, a.LeadsLocally d u distance := by
  obtain ⟨-, stop, hskip, -⟩ := ha
  obtain ⟨distance, bytes, hwrites, hholds⟩ := Form.writesDistance_of_skip hform hskip
  have hdistance := distance_of_writes hwrites hholds a.name a.implicitConst
  refine ⟨distance, ⟨bytes, hwrites, hholds⟩, localReference_eq_of_distance hroot hdistance, ?_⟩
  rw [reference, if_neg hwrites.ne_refAddr]
  cases a.localReference u <;> rfl

theorem exists_leadsAcross (hd : Consecutive d.units.toList stop)
    (hindex : ∀ v ∈ d.units, d.units[v.index]? = some v)
    (hsize : isAddressSize u.region.addressSize = true) (ha : a.EndsBy u k)
    (hform : a.form = .refAddr) : ∃ target, a.LeadsAcross d u target := by
  obtain ⟨-, stop, hskip, -⟩ := ha
  obtain ⟨hpos, hle⟩ := unitReferenceSize_bounds u.header.version hsize
  rw [hform] at hskip
  obtain ⟨_, _, h, hskip⟩ := bind_eq_ok hskip
  cases h
  obtain ⟨target, hfits, hholds⟩ := exists_encode_of_skip hle hskip
  have hreads := reads_sized (r := u.region) hpos hle hfits
  rw [UInt64.ofNat_toNat] at hreads
  refine ⟨target, hfits, hholds, fun v hv hin => ⟨hindex v hv, ?_⟩⟩
  exact reference_of_unitContaining? hform (DebugUnit.decodeAt_of_reads hreads hholds)
    (DebugInfo.unitContaining?_of_containsOffset hd hv hin)

theorem LeadsLocally.distance_eq {distance n : UInt64} {bytes : List UInt8}
    (h : a.LeadsLocally d u distance) (hn : a.form.WritesDistance u.region.order n bytes)
    (hholds : u.window.Holds a.offset bytes) : distance = n := by
  obtain ⟨_, hwrites, hholds'⟩ := h.writes
  have hsame := distance_of_writes hwrites hholds' a.name a.implicitConst
  rw [distance_of_writes hn hholds] at hsame
  exact (Except.ok.inj hsame).symm

theorem LeadsAcross.target_eq {target : UInt64} {bytes : List UInt8}
    (h : a.LeadsAcross d u target) (hholds : u.window.Holds a.offset bytes)
    (hlength : bytes.length = unitReferenceSize u.region u.header.version) :
    target = .ofNat (u.region.order.decode bytes) := by
  have hbytes := h.holds.slice_eq
  rw [ByteOrder.length_encode, ← hlength, hholds.slice_eq] at hbytes
  rw [hbytes, ByteOrder.decode_encode, hlength, Nat.mod_eq_of_lt h.fits, UInt64.ofNat_toNat]

end Attribute

namespace DebugInfo

variable {d : DebugInfo} {sections : DebugSections} {order : ByteOrder} {u : DebugUnit}
  {stop target : Nat}

/-- The search finds the last unit that begins at or before an offset. -/
theorem unitContaining?_eq_getLast? (h : Consecutive d.units.toList stop) (target : Nat) :
    d.unitContaining? target = (d.units.toList.filter (·.offset ≤ target)).getLast? := by
  have hpoint : ∀ i (hi : i < d.units.size), i < partitionPoint (·.offset ≤ target) d.units ↔
      decide (d.units[i].offset ≤ target) = true := by
    intro i hi
    rw [lt_partitionPoint_offset_iff h target hi, decide_eq_true_eq]
  have hsize := partitionPoint_le_size (·.offset ≤ target) d.units
  rw [filter_eq_take hpoint, unitContaining?]
  split
  · rename_i hzero
    rw [hzero]
    rfl
  · rename_i i hpoint
    rw [hpoint] at hsize ⊢
    rw [List.getLast?_take, if_neg (Nat.succ_ne_zero i), Nat.succ_sub_one, Array.getElem?_toList,
      Array.getElem?_eq_getElem hsize]
    rfl

theorem exists_region_of_mem (hd : ofSections sections order = .ok d) (hu : u ∈ d.units) :
    ∃ r info, DebugUnit.ofRegion u.index sections info r = .ok u ∧
      d.units[u.index]? = some u := by
  unfold ofSections at hd
  split at hd <;> cases hd
  obtain ⟨i, hi⟩ := Array.mem_iff_getElem?.1 hu
  obtain ⟨r, _, -, -, hregion⟩ := exists_region_of_getElem?_scan hi (Nat.zero_le i)
  obtain rfl := DebugUnit.index_of_ofRegion hregion
  exact ⟨r, _, hregion, hi⟩

/-- An offset is looked up as if the units were gone through one by one, and found in the one unit
that has entries there. What an attribute of an entry states is the distance of an entry in its
unit or the offset of one in any, and this entry alone is what the attribute refers to. -/
theorem resolves_references (hd : ofSections sections order = .ok d) :
    (∀ target,
      d.unitContaining? target = (d.units.toList.filter (·.offset ≤ target)).getLast? ∧
      ∀ u ∈ d.units, u.containsOffset target = true →
        d.unitContaining? target = some u ∧
          ∀ v ∈ d.units, v.containsOffset target = true → v = u) ∧
    ∀ u ∈ d.units, ∀ offset e, u.find offset = .ok e → ∀ slot ∈ e.slots, ∀ a,
      Attribute.ofSpec u slot.spec slot.offset = .ok a →
        (a.form ∈ [.ref1, .ref2, .ref4, .ref8, .refUdata] →
          ∃ distance, a.LeadsLocally d u distance) ∧
        (a.form = .refAddr → ∃ target, a.LeadsAcross d u target) := by
  obtain ⟨stop, hunits⟩ := consecutive_of_ofSections hd
  refine ⟨fun target => ⟨unitContaining?_eq_getLast? hunits target, fun u hu hin => ?_⟩, ?_⟩
  · have hfound := unitContaining?_of_containsOffset hunits hu hin
    refine ⟨hfound, fun v hv hin' => ?_⟩
    have hsame := unitContaining?_of_containsOffset hunits hv hin'
    exact Option.some.inj (hsame.symm.trans hfound)
  · intro u hu offset e he slot hslot a ha
    have hends := (DebugUnit.endsBy_of_find he slot hslot).of_ofSpec ha
    have hroot := hunits.offset_le_root u (Array.mem_toList_iff.2 hu)
    obtain ⟨r, info, hregion, -⟩ := exists_region_of_mem hd hu
    have hindex : ∀ v ∈ d.units, d.units[v.index]? = some v := by
      intro v hv
      obtain ⟨_, _, -, hplace⟩ := exists_region_of_mem hd hv
      exact hplace
    have hsize := DebugUnit.isAddressSize_of_ofRegion hregion
    exact ⟨Attribute.exists_leadsLocally d hroot hends,
      Attribute.exists_leadsAcross hunits hindex hsize hends⟩

/-- An abbreviation of entries with two references into their unit and one into any. -/
def linksAbbreviation : SpelledAbbreviation :=
  .inBytes 10 0x2f false [(0x31, .ref1), (0x47, .ref8), (0x49, .refAddr)] (by decide)

def linksBytes : ByteArray := ⟨#[10, 0x2f, 0, 0x31, 0x11, 0x47, 0x14, 0x49, 0x10, 0, 0, 0]⟩

/-- A unit with one entry, which refers to itself, to the end of all words and to the root of the
first unit. -/
def linksUnit : DelimitedUnit where
  format := .bits32
  content :=
    [4, 0, 0, 0, 0, 0, 8, 10, 11, 0xff, 0xff, 0xff, 0xff, 0xff, 0xff, 0xff, 0xff, 11, 0, 0, 0]
  fits := by change 21 < 0xfffffff0; decide

/-- Two such units. -/
def linksInfo : ByteArray := ⟨(linksUnit.bytes .little ++ linksUnit.bytes .little).toArray⟩

def linksSections : DebugSections where
  info := some linksInfo
  abbreviations := some linksBytes

def linksUnitAt (start index : Nat) : DebugUnit :=
  linksUnit.unitAt linksSections linksInfo .little start index ⟨4, 0, 8, 0, start + 11⟩

theorem hasHeader_linksUnit (start index : Nat) :
    linksUnit.HasHeader .little start (linksUnitAt start index).header :=
  have hlayout : UnitHeader.Layout .little .bits32 (ByteOrder.little.decode [4, 0]) 0
      (8 : UInt8).toNat (.ofNat (ByteOrder.little.decode [0, 0, 0, 0]))
      ([4, 0] ++ ([0, 0, 0, 0] ++ [8])) :=
    .early rfl (by decide) (by decide) rfl (by decide)
  ⟨[4, 0, 0, 0, 0, 0, 8], _, rfl, hlayout, rfl⟩

theorem ofSections_linksSections :
    ofSections linksSections .little =
      .ok { sections := linksSections, units := [linksUnitAt 0 0, linksUnitAt 25 1].toArray } := by
  have hbytes : linksInfo.data.toList =
      [linksUnit, linksUnit].flatMap (·.bytes .little) ++ [] := rfl
  exact ofSections_of_lists rfl (by decide) hbytes .empty
    (.unit (hasHeader_linksUnit 0 0) (.unit (hasHeader_linksUnit 25 1) .nil))

theorem abbreviations_linksUnitAt (start index : Nat) :
    (linksUnitAt start index).abbreviations = .ok (.ofList [linksAbbreviation.abbreviation]) := by
  have hholds : (Window.mk linksBytes (.whole linksBytes .little)).Holds (0 : UInt64).toNat
      ([linksAbbreviation].flatMap (·.bytes) ++ [0]) := ⟨by decide, rfl⟩
  have hdata : linksSections.get? .abbreviations = some linksBytes := rfl
  exact DebugSections.decodeAt_of_reads hdata (by decide)
    (AbbreviationTable.reads_decode [linksAbbreviation]) hholds

def linksEntry : EncodedEntry (linksUnitAt 25 1) where
  abbreviation := linksAbbreviation.abbreviation
  code := [10]
  attributes :=
    [({ name := 0x31, form := .ref1 }, [11]),
      ({ name := 0x47, form := .ref8 }, [0xff, 0xff, 0xff, 0xff, 0xff, 0xff, 0xff, 0xff]),
      ({ name := 0x49, form := .refAddr }, [11, 0, 0, 0])]
  isGroup := .last rfl
  code_ne_zero := linksAbbreviation.code_ne_zero
  abbreviation_eq := by
    refine ⟨_, abbreviations_linksUnitAt 25 1, ?_⟩
    exact (AbbreviationTable.indexes_ofList _).get_last [] linksAbbreviation.abbreviation [] rfl
      (List.forall_mem_nil _)
  specs_eq := rfl
  encodes := by
    refine List.forall_mem_cons.2 ⟨?_, List.forall_mem_cons.2 ⟨?_, List.forall_mem_singleton.2 ?_⟩⟩
    · exact .direct Form.noConfusion (.fixed [11])
    · exact .direct Form.noConfusion (.fixed [0xff, 0xff, 0xff, 0xff, 0xff, 0xff, 0xff, 0xff])
    · exact .direct Form.noConfusion (.unitReference rfl)

/-- The entry of the second unit. The distance to the end of all words is cut off before the unit,
so the reference leads nowhere. -/
theorem resolves_references_linksUnit :
    ∃ d u e, ofSections linksSections .little = .ok d ∧ u ∈ d.units ∧ u.find 36 = .ok e ∧
      e.slots.map (·.offset) = [37, 38, 46] ∧
      (Attribute.mk 0x31 .ref1 37 none).reference d u = .ok ⟨1, 36⟩ ∧
      (Attribute.mk 0x47 .ref8 38 none).reference d u = .error (.invalidOffset .info 24) ∧
      (Attribute.mk 0x49 .refAddr 46 none).reference d u = .ok ⟨0, 11⟩ ∧
      (d.unitContaining? 11).map (·.index) = some 0 := by
  have hfind : (linksUnitAt 25 1).find 36 = .ok (linksEntry.entryAt 36) :=
    DebugUnit.find_entry linksEntry (by decide) ⟨by decide, rfl⟩
  have hfirst : linksUnitAt 0 0 ∈ [linksUnitAt 0 0, linksUnitAt 25 1].toArray := by simp
  have hsecond : linksUnitAt 25 1 ∈ [linksUnitAt 0 0, linksUnitAt 25 1].toArray := by simp
  obtain ⟨hunits, hattributes⟩ := resolves_references ofSections_linksSections
  have hslot := hattributes _ hsecond 36 _ hfind
  obtain ⟨n₁, hitself⟩ := (hslot ⟨{ name := 0x31, form := .ref1 }, 37⟩ (.head _) _
    (Attribute.ofSpec_of_ne Form.noConfusion 37)).1 (.head _)
  obtain ⟨n₂, hend⟩ := (hslot ⟨{ name := 0x47, form := .ref8 }, 38⟩ (.tail _ (.head _)) _
    (Attribute.ofSpec_of_ne Form.noConfusion 38)).1 (.tail _ (.tail _ (.tail _ (.head _))))
  obtain ⟨n₃, hother⟩ := (hslot ⟨{ name := 0x49, form := .refAddr }, 46⟩
    (.tail _ (.tail _ (.head _))) _ (Attribute.ofSpec_of_ne Form.noConfusion 46)).2 rfl
  have hholds : (linksUnitAt 25 1).window.Holds 46 [11, 0, 0, 0] := ⟨by decide, rfl⟩
  obtain rfl : n₁ = 11 := hitself.distance_eq (.fixed rfl (by decide)) ⟨by decide, rfl⟩
  obtain rfl : n₂ = 0xffffffffffffffff :=
    hend.distance_eq (.fixed rfl (by decide)) ⟨by decide, rfl⟩
  obtain rfl : n₃ = 11 := hother.target_eq hholds rfl
  refine ⟨_, _, _, ofSections_linksSections, hsecond, hfind, rfl, ?_, ?_, ?_, ?_⟩
  · rw [hitself.reference_eq, hitself.localReference_eq, if_pos (by decide)]
    rfl
  · rw [hend.reference_eq, hend.localReference_eq, if_neg (by decide)]
    rfl
  · exact (hother.reference_eq _ hfirst rfl).2
  · rw [((hunits 11).2 _ hfirst rfl).1]
    rfl

end DebugInfo

end StackSurvey.Dwarf
