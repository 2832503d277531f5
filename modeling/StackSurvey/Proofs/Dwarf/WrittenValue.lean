import StackSurvey.Proofs.Dwarf.NumberBytes
import StackSurvey.Proofs.Dwarf.UnitOrder
import StackSurvey.Proofs.Dwarf.ValueBytes

namespace StackSurvey.Dwarf

open Decoder

namespace Form

/-- Bytes that hold of a form once its indirections, each written as the code of the next form, have
been followed. -/
inductive Chain (P : Form → List UInt8 → Prop) : Form → List UInt8 → Prop
  | direct {form : Form} {bytes : List UInt8} (hform : form ≠ .indirect) (h : P form bytes) :
      Chain P form bytes
  | indirect {form : Form} {group bytes : List UInt8} (hgroup : Leb128.IsGroup group)
      (hform : form.HasCode (Leb128.unsigned group)) (h : Chain P form bytes) :
      Chain P .indirect (group ++ bytes)

variable {P : Form → List UInt8 → Prop} {form : Form} {bytes : List UInt8}

theorem Chain.encodes {r : Region} {version : Nat}
    (hspans : ∀ form bytes, P form bytes → form.extent.Spans r version bytes)
    (h : Chain P form bytes) : form.Encodes r version bytes := by
  induction h with
  | direct hform h => exact .direct hform (hspans _ _ h)
  | indirect hgroup hform _ ih => exact .indirect hgroup hform ih

theorem Chain.follow_eq {w : Window} {pos : Nat} (h : Chain P form bytes) (hw : w.Holds pos bytes) :
    ∃ f start rest, form.follow w pos = .ok f start ∧ P f rest ∧ w.Holds start rest := by
  induction h generalizing pos with
  | direct hform h => exact ⟨_, pos, _, by rw [follow_of_ne hform]; rfl, h, hw⟩
  | indirect hgroup hform _ ih =>
    obtain ⟨hcode, hrest⟩ := Window.holds_append.1 hw
    obtain ⟨f, start, rest, hfollow, hP, hholds⟩ := ih hrest
    refine ⟨f, start, rest, ?_, hP, hholds⟩
    rw [follow_indirect, bind_of_eq_ok _ (reads_uleb128 hgroup rfl hcode),
      ofCode_eq_iff.2 hform, hfollow]

/-- The bytes of a distance from the start of the unit. -/
inductive WritesDistance (order : ByteOrder) (distance : UInt64) : Form → List UInt8 → Prop
  | fixed {form : Form} {width : Nat} (hform : form.distanceWidth? = some width)
      (hfits : distance.toNat < 1 <<< (8 * width)) :
      WritesDistance order distance form (order.encode width distance.toNat)
  | group {group : List UInt8} (h : Leb128.IsGroup group)
      (hdistance : Leb128.unsigned group = distance) : WritesDistance order distance .refUdata group

end Form

/-- A value that an attribute states. -/
inductive AttributeValue where
  | address (n : UInt64)
  | unsigned (n : UInt64)
  | signed (n : Int64)
  | sectionOffset (n : UInt64)
  | flag (b : Bool)
  | block (bytes : List UInt8)
  | expression (code : List UInt8)
  | string (s : String)
  /-- An entry of the same unit. -/
  | localReference (offset : Nat)
  | reference (place : EntryPlace)

namespace AttributeValue

variable {d : DebugInfo} {u : DebugUnit}

/-- The reading for a value gives it. -/
def ReadFrom (d : DebugInfo) (u : DebugUnit) (a : Attribute) : AttributeValue → Prop
  | address n => a.address u = .ok n
  | unsigned n => a.unsigned u = .ok n
  | signed n => a.signed u = .ok n
  | sectionOffset n => a.sectionOffset u = .ok n
  | flag b => a.flag u = .ok b
  | block bytes => a.block u = .ok bytes
  | expression code =>
    a.expression u = .ok
      { code, format := u.region.format, order := u.region.order
        addressSize := u.region.addressSize }
  | string s => a.string u = .ok s
  | localReference offset =>
    a.localReference u = .ok offset ∧ a.reference d u = .ok ⟨u.index, offset⟩
  | reference place => a.reference d u = .ok place

/-- The bytes that a unit writes a value as, in a form other than an indirection. -/
inductive Written (d : DebugInfo) (u : DebugUnit) : AttributeValue → Form → List UInt8 → Prop
  | address {n : UInt64} (hsize : isAddressSize u.region.addressSize = true)
      (hfits : n.toNat < 1 <<< (8 * u.region.addressSize)) :
      Written d u (.address n) .addr (u.region.order.encode u.region.addressSize n.toNat)
  | data {form : Form} {width : Nat} {n : UInt64} (hform : form.dataWidth? = some width)
      (hfits : n.toNat < 1 <<< (8 * width)) :
      Written d u (.unsigned n) form (u.region.order.encode width n.toNat)
  | signedData {form : Form} {width : Nat} {n : Int64} (hform : form.dataWidth? = some width)
      (hlow : -(1 <<< (8 * width - 1) : Nat) ≤ n.toInt)
      (hhigh : n.toInt < (1 <<< (8 * width - 1) : Nat)) :
      Written d u (.signed n) form (u.region.order.encode width (complement width n.toInt))
  | udata {group : List UInt8} (h : Leb128.IsGroup group) :
      Written d u (.unsigned (Leb128.unsigned group)) .udata group
  | sdata {group : List UInt8} (h : Leb128.IsGroup group) :
      Written d u (.signed (Leb128.signed group)) .sdata group
  | sectionOffset {n : UInt64} (hfits : n.toNat < 1 <<< (8 * u.region.format.offsetSize)) :
      Written d u (.sectionOffset n) .secOffset
        (u.region.order.encode u.region.format.offsetSize n.toNat)
  /-- Old versions write section offsets as constants. -/
  | dataOffset {form : Form} {width : Nat} {n : UInt64} (hform : form.dataWidth? = some width)
      (hwidth : 4 ≤ width) (hfits : n.toNat < 1 <<< (8 * width)) :
      Written d u (.sectionOffset n) form (u.region.order.encode width n.toNat)
  | flag (b : UInt8) : Written d u (.flag (b != 0)) .flag [b]
  | flagPresent : Written d u (.flag true) .flagPresent []
  | block {form : Form} {width : Nat} {bytes : List UInt8} (hform : form.countWidth? = some width)
      (hfits : bytes.length < 1 <<< (8 * width)) :
      Written d u (.block bytes) form (u.region.order.encode width bytes.length ++ bytes)
  | groupBlock {form : Form} {group bytes : List UInt8} (hform : form = .block ∨ form = .exprloc)
      (hgroup : Leb128.IsGroup group) (hcount : (Leb128.unsigned group).toNat = bytes.length) :
      Written d u (.block bytes) form (group ++ bytes)
  | expression {form : Form} {code bytes : List UInt8} (h : Written d u (.block code) form bytes) :
      Written d u (.expression code) form bytes
  | string {text : List UInt8} (h : 0 ∉ text) :
      Written d u (.string (Utf8.lossy text)) .string (text ++ [0])
  | sectionText {form : Form} {name : DebugSection} {offset : UInt64} {text : List UInt8}
      (hform : form.textSection? = some name)
      (htext : u.sections.HasText name u.region.order offset.toNat text)
      (hfits : offset.toNat < 1 <<< (8 * u.region.format.offsetSize)) :
      Written d u (.string (Utf8.lossy text)) form
        (u.region.order.encode u.region.format.offsetSize offset.toNat)
  | localReference {form : Form} {distance : UInt64} {bytes : List UInt8}
      (h : form.WritesDistance u.region.order distance bytes)
      (hword : u.offset + distance.toNat < 1 <<< 64)
      (hin : u.containsOffset (u.offset + distance.toNat) = true) :
      Written d u (.localReference (u.offset + distance.toNat)) form bytes
  | reference {other : DebugUnit} {target : UInt64} (hother : other ∈ d.units)
      (hin : other.containsOffset target.toNat = true)
      (hsize : isAddressSize u.region.addressSize = true)
      (hfits : target.toNat < 1 <<< (8 * unitReferenceSize u.region u.header.version)) :
      Written d u (.reference ⟨other.index, target.toNat⟩) .refAddr
        (u.region.order.encode (unitReferenceSize u.region u.header.version) target.toNat)

end AttributeValue

theorem Form.WritesDistance.ne_refAddr {form : Form} {order : ByteOrder} {distance : UInt64}
    {bytes : List UInt8} (h : form.WritesDistance order distance bytes) : form ≠ .refAddr := by
  rintro rfl
  cases h with
  | fixed hform => cases hform

theorem unitReferenceSize_bounds {r : Region} (version : Nat)
    (h : isAddressSize r.addressSize = true) :
    0 < unitReferenceSize r version ∧ unitReferenceSize r version ≤ 8 := by
  unfold unitReferenceSize
  split
  · exact bounds_of_isAddressSize h
  · exact bounds_offsetSize r.format

section Spans

variable {r : Region} {version : Nat} {form : Form} {bytes : List UInt8}

theorem Extent.spans_encode (order : ByteOrder) (width n : Nat) :
    (fixed width).Spans r version (order.encode width n) := by
  have h : (fixed (order.encode width n).length).Spans r version (order.encode width n) :=
    .fixed _
  rwa [ByteOrder.length_encode] at h

theorem Extent.spans_counted {width : Nat} (hfits : bytes.length < 1 <<< (8 * width)) :
    (counted width).Spans r version (r.order.encode width bytes.length ++ bytes) := by
  have hcount : r.order.decode (r.order.encode width bytes.length) = bytes.length := by
    rw [ByteOrder.decode_encode, Nat.mod_eq_of_lt hfits]
  have h : (counted (r.order.encode width bytes.length).length).Spans r version
      (r.order.encode width bytes.length ++ bytes) := .counted hcount
  rwa [ByteOrder.length_encode] at h

theorem Form.WritesDistance.spans {distance : UInt64}
    (h : form.WritesDistance r.order distance bytes) : form.extent.Spans r version bytes := by
  cases h with
  | fixed hform hfits =>
    rw [(extent_of_distanceWidth? hform).1]
    exact Extent.spans_encode ..
  | group hgroup => exact .unsignedGroup hgroup

end Spans

namespace AttributeValue

variable {d : DebugInfo} {u : DebugUnit} {value : AttributeValue} {form : Form} {bytes : List UInt8}

theorem Written.spans (h : value.Written d u form bytes) :
    form.extent.Spans u.region u.header.version bytes := by
  induction h with
  | address hsize hfits => exact .address hsize (ByteOrder.length_encode ..)
  | data hform hfits =>
    rw [(Form.extent_of_dataWidth? hform).1]
    exact Extent.spans_encode ..
  | signedData hform hlow hhigh =>
    rw [(Form.extent_of_dataWidth? hform).1]
    exact Extent.spans_encode ..
  | udata hgroup => exact .unsignedGroup hgroup
  | sdata hgroup => exact .signedGroup hgroup
  | sectionOffset hfits => exact .offset (ByteOrder.length_encode ..)
  | dataOffset hform hwidth hfits =>
    rw [(Form.extent_of_dataWidth? hform).1]
    exact Extent.spans_encode ..
  | flag b => exact .fixed [b]
  | flagPresent => exact .elsewhere
  | block hform hfits =>
    rw [(Form.extent_of_countWidth? hform).1]
    exact Extent.spans_counted hfits
  | groupBlock hform hgroup hcount =>
    rcases hform with rfl | rfl
    · exact .groupCounted hgroup hcount
    · exact .groupCounted hgroup hcount
  | expression _ ih => exact ih
  | string htext => exact .terminated htext
  | sectionText hform htext hfits =>
    rw [Form.extent_of_textSection? hform]
    exact .offset (ByteOrder.length_encode ..)
  | localReference h hword hin => exact h.spans
  | reference hother hin hsize hfits => exact .unitReference (ByteOrder.length_encode ..)

end AttributeValue

theorem DebugUnit.decodeAt_of_reads {α : Type} {u : DebugUnit} {dec : Decoder α} {a : α}
    {pos : Nat} {bytes : List UInt8} (hdec : dec.Reads u.region bytes a)
    (h : u.window.Holds pos bytes) : u.decodeAt pos dec = .ok a := by
  rw [decodeAt, hdec rfl h]

namespace Attribute

variable {d : DebugInfo} {u : DebugUnit} {name : UInt64} {form : Form} {pos width : Nat}
  {implicitConst : Option Int64} {bytes : List UInt8} {n : UInt64}

theorem ofSpec_of_follow {spec : AttributeSpec} {start : Nat}
    (h : spec.form.follow u.window pos = .ok form start) :
    ofSpec u spec pos = .ok ⟨spec.name, form, start, spec.implicitConst⟩ := by
  rw [ofSpec, DebugUnit.decodeAt, bind_of_eq_ok _ h]
  rfl

theorem unsigned_of_dataWidth? (h : form.dataWidth? = some width) :
    unsigned u ⟨name, form, pos, implicitConst⟩ = u.decodeAt pos (sized width) := by
  cases form <;> cases h <;> rfl

theorem signed_of_dataWidth? (h : form.dataWidth? = some width) :
    signed u ⟨name, form, pos, implicitConst⟩ =
      u.decodeAt pos (Int64.ofInt <$> Decoder.signed width) := by
  cases form <;> cases h <;> rfl

theorem sectionOffset_of_dataWidth? (h : form.dataWidth? = some width) (hwidth : 4 ≤ width) :
    sectionOffset u ⟨name, form, pos, implicitConst⟩ = u.decodeAt pos (sized width) := by
  cases form <;> cases h
  case data1 | data2 => omega
  all_goals rfl

theorem blockAs_of_countWidth? (h : form.countWidth? = some width) (expected : Reading) :
    blockAs u ⟨name, form, pos, implicitConst⟩ expected =
      u.decodeAt pos (do Decoder.bytes (← Decoder.unsigned width)) := by
  cases form <;> cases h <;> rfl

/-- The bytes of a block do not depend on the fault of another reading. -/
theorem blockAs_of_block {a : Attribute} (h : a.block u = .ok bytes) (expected : Reading) :
    a.blockAs u expected = .ok bytes := by
  unfold block blockAs at *
  split at h
  case h_6 => cases h
  all_goals exact h

theorem distance_of_distanceWidth? (h : form.distanceWidth? = some width) :
    distance u ⟨name, form, pos, implicitConst⟩ = u.decodeAt pos (sized width) := by
  cases form <;> cases h <;> rfl

theorem string_of_textSection? {source : DebugSection} (h : form.textSection? = some source) :
    string u ⟨name, form, pos, implicitConst⟩ =
      (do u.sections.textAt source (← u.decodeAt pos Decoder.offset) u.region.order) := by
  cases form <;> cases h <;> rfl

theorem distance_of_writes (h : form.WritesDistance u.region.order n bytes)
    (hw : u.window.Holds pos bytes) (name : UInt64) (implicitConst : Option Int64) :
    distance u ⟨name, form, pos, implicitConst⟩ = .ok n := by
  cases h with
  | fixed hform hfits =>
    obtain ⟨_, hpos, hle⟩ := Form.extent_of_distanceWidth? hform
    have hreads := reads_sized (r := u.region) hpos hle hfits
    rw [UInt64.ofNat_toNat] at hreads
    rw [distance_of_distanceWidth? hform]
    exact DebugUnit.decodeAt_of_reads hreads hw
  | group hgroup hdistance =>
    rw [← hdistance]
    exact DebugUnit.decodeAt_of_reads (reads_uleb128 hgroup) hw

theorem localReference_of_distance {a : Attribute} (h : a.distance u = .ok n)
    (hword : u.offset + n.toNat < 1 <<< 64) :
    a.localReference u =
      if u.containsOffset (u.offset + n.toNat) then .ok (u.offset + n.toNat)
      else .error (.invalidOffset .info (u.offset + n.toNat)) := by
  have htarget : (UInt64.ofNat u.offset + n).toNat = u.offset + n.toNat := by
    rw [UInt64.toNat_add, UInt64.toNat_ofNat']
    simp only [Nat.one_shiftLeft] at hword
    omega
  rw [localReference, h, ← htarget]
  rfl

theorem reference_of_localReference {a : Attribute} {target : Nat} (hform : a.form ≠ .refAddr)
    (h : a.localReference u = .ok target) : a.reference d u = .ok ⟨u.index, target⟩ := by
  rw [reference, if_neg hform, h]
  rfl

theorem reference_of_unitContaining? {a : Attribute} {other : DebugUnit}
    (hform : a.form = .refAddr)
    (hread : u.decodeAt a.offset (sized (unitReferenceSize u.region u.header.version)) = .ok n)
    (hunit : d.unitContaining? n.toNat = some other) :
    a.reference d u = .ok ⟨other.index, n.toNat⟩ := by
  rw [reference, if_pos hform, hread]
  dsimp only [bind, Except.bind]
  rw [hunit]
  rfl

end Attribute

namespace AttributeValue

variable {d : DebugInfo} {u : DebugUnit} {value : AttributeValue} {form : Form} {bytes : List UInt8}

/-- What a unit writes of a value is read as the value. -/
theorem Written.readFrom {stop : Nat} (hd : Consecutive d.units.toList stop)
    (h : value.Written d u form bytes) (name : UInt64) {pos : Nat} (implicitConst : Option Int64)
    (hw : u.window.Holds pos bytes) : value.ReadFrom d u ⟨name, form, pos, implicitConst⟩ := by
  induction h with
  | @address n hsize hfits =>
    have hreads := reads_address (r := u.region) hsize hfits
    rw [UInt64.ofNat_toNat] at hreads
    exact DebugUnit.decodeAt_of_reads hreads hw
  | @data form width n hform hfits =>
    obtain ⟨_, hpos, hle⟩ := Form.extent_of_dataWidth? hform
    have hreads := reads_sized (r := u.region) hpos hle hfits
    rw [UInt64.ofNat_toNat] at hreads
    exact (Attribute.unsigned_of_dataWidth? hform).trans (DebugUnit.decodeAt_of_reads hreads hw)
  | @signedData form width n hform hlow hhigh =>
    obtain ⟨_, hpos, hle⟩ := Form.extent_of_dataWidth? hform
    have hreads := (reads_signed (r := u.region) hpos hlow hhigh).map (f := Int64.ofInt)
    rw [Int64.ofInt_toInt] at hreads
    exact (Attribute.signed_of_dataWidth? hform).trans (DebugUnit.decodeAt_of_reads hreads hw)
  | udata hgroup => exact DebugUnit.decodeAt_of_reads (reads_uleb128 hgroup) hw
  | sdata hgroup => exact DebugUnit.decodeAt_of_reads (reads_sleb128 hgroup) hw
  | @sectionOffset n hfits =>
    have hreads := reads_offset (r := u.region) hfits
    rw [UInt64.ofNat_toNat] at hreads
    exact DebugUnit.decodeAt_of_reads hreads hw
  | @dataOffset form width n hform hwidth hfits =>
    obtain ⟨_, hpos, hle⟩ := Form.extent_of_dataWidth? hform
    have hreads := reads_sized (r := u.region) hpos hle hfits
    rw [UInt64.ofNat_toNat] at hreads
    exact (Attribute.sectionOffset_of_dataWidth? hform hwidth).trans
      (DebugUnit.decodeAt_of_reads hreads hw)
  | flag b => exact DebugUnit.decodeAt_of_reads (reads_byte b).map hw
  | flagPresent => rfl
  | @block form width bytes hform hfits =>
    have hreads := (reads_encode (r := u.region) hfits).bind (reads_bytes bytes)
    exact (Attribute.blockAs_of_countWidth? hform .block).trans
      (DebugUnit.decodeAt_of_reads hreads hw)
  | @groupBlock form group bytes hform hgroup hcount =>
    have hbytes : (Decoder.bytes (Leb128.unsigned group).toNat).Reads u.region bytes bytes := by
      rw [hcount]
      exact reads_bytes bytes
    have hreads := (reads_uleb128 hgroup).bind (f := fun n => Decoder.bytes n.toNat) hbytes
    rcases hform with rfl | rfl
    · exact DebugUnit.decodeAt_of_reads hreads hw
    · exact DebugUnit.decodeAt_of_reads hreads hw
  | expression h ih =>
    rw [ReadFrom, Attribute.expression, Attribute.blockAs_of_block (ih hw)]
    rfl
  | string hzero => exact DebugUnit.decodeAt_of_reads (reads_text hzero) hw
  | @sectionText form source offset text hform htext hfits =>
    have hreads := reads_offset (r := u.region) hfits
    rw [UInt64.ofNat_toNat] at hreads
    rw [ReadFrom, Attribute.string_of_textSection? hform,
      DebugUnit.decodeAt_of_reads hreads hw]
    exact htext.textAt_eq
  | localReference h hword hin =>
    have hdistance := Attribute.distance_of_writes h hw name implicitConst
    have hlocal := Attribute.localReference_of_distance hdistance hword
    rw [if_pos hin] at hlocal
    exact ⟨hlocal, Attribute.reference_of_localReference h.ne_refAddr hlocal⟩
  | @reference other target hother hin hsize hfits =>
    obtain ⟨hpos, hle⟩ := unitReferenceSize_bounds u.header.version hsize
    have hreads := reads_sized (r := u.region) hpos hle hfits
    rw [UInt64.ofNat_toNat] at hreads
    exact Attribute.reference_of_unitContaining? rfl (DebugUnit.decodeAt_of_reads hreads hw)
      (DebugInfo.unitContaining?_of_containsOffset hd hother hin)

end AttributeValue

end StackSurvey.Dwarf
