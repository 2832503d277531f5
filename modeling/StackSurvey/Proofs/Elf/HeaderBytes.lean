import StackSurvey.Elf.Header
import StackSurvey.Proofs.Dwarf.NumberBytes
import StackSurvey.Proofs.Text.Utf8

namespace StackSurvey

def ByteOrder.code : ByteOrder → UInt8
  | little => 1
  | big => 2

namespace Elf

open Dwarf (Window Decoder isAddressSize)
open Dwarf.Decoder

def FileClass.code : FileClass → UInt8
  | bits32 => 1
  | bits64 => 2

theorem FileClass.isAddressSize_addressSize (c : FileClass) :
    isAddressSize c.addressSize = true := by
  cases c <;> rfl

theorem FileClass.toNat_add_sectionHeaderSize (c : FileClass) {offset : UInt64}
    (h : offset.toNat + c.sectionHeaderSize < 1 <<< 64) :
    (offset + UInt64.ofNat c.sectionHeaderSize).toNat = offset.toNat + c.sectionHeaderSize := by
  have hsize : (UInt64.ofNat c.sectionHeaderSize).toNat = c.sectionHeaderSize := by
    cases c <;> rfl
  rw [UInt64.toNat_add, hsize]
  exact Nat.mod_eq_of_lt h

/-- The items of a table are all equally long. -/
theorem length_flatMap_of_forall {ι : Type} {items : List ι} {bytes : ι → List UInt8} {width : Nat}
    (h : ∀ x ∈ items, (bytes x).length = width) :
    (items.flatMap bytes).length = items.length * width := by
  rw [List.length_flatMap, List.map_congr_left h, List.map_const', List.sum_replicate_nat]

namespace Encoding

variable {e : Encoding} {data : ByteArray}

def window (e : Encoding) (data : ByteArray) : Window := ⟨data, e.region data⟩

theorem limit_window (e : Encoding) (data : ByteArray) : (e.window data).limit = data.size :=
  Nat.min_self data.size

theorem holds_window (e : Encoding) (bytes : List UInt8) :
    (e.window ⟨bytes.toArray⟩).Holds 0 bytes := by
  have hwhole : (Window.mk ⟨bytes.toArray⟩ (.whole ⟨bytes.toArray⟩ e.order)).EndsWith 0 bytes :=
    Window.endsWith_whole rfl
  exact ⟨hwhole.holds.le_limit, hwhole.holds.slice_eq⟩

/-- An address or another number as wide as one. -/
def word (e : Encoding) (n : Nat) : List UInt8 := e.order.encode e.fileClass.addressSize n

/-- What a file begins with. -/
def magic (e : Encoding) : List UInt8 := [0x7f, 0x45, 0x4c, 0x46, e.fileClass.code, e.order.code]

theorem reads_word (data : ByteArray) {n : UInt64}
    (hn : n.toNat < 1 <<< (8 * e.fileClass.addressSize)) :
    address.Reads (e.region data) (e.word n.toNat) n := by
  have h := reads_address (r := e.region data) e.fileClass.isAddressSize_addressSize hn
  rwa [UInt64.ofNat_toNat] at h

theorem reads_anyWord (e : Encoding) (data : ByteArray) (n : Nat) :
    ∃ m, address.Reads (e.region data) (e.word n) m := by
  -- The number need not fit: it is read without the bytes that it has too many.
  have hlength : (e.word n).length = e.fileClass.addressSize := ByteOrder.length_encode ..
  have h := reads_address (r := e.region data) e.fileClass.isAddressSize_addressSize
    (hlength ▸ ByteOrder.decode_lt e.order (e.word n))
  change address.Reads _ (e.order.encode e.fileClass.addressSize _) _ at h
  rw [← hlength, ByteOrder.encode_decode] at h
  exact ⟨_, h⟩

theorem reads_any {width : Nat} (n : Nat) :
    (unsigned width).Reads (e.region data) (e.order.encode width n) (n % 1 <<< (8 * width)) := by
  have h := reads_unsigned_of_length (r := e.region data) (ByteOrder.length_encode e.order width n)
  change (unsigned width).Reads _ _ (e.order.decode (e.order.encode width n)) at h
  rwa [ByteOrder.decode_encode] at h

theorem toNat_add_of_holds {bytes : List UInt8} {offset size : UInt64}
    (hdata : data.size < 1 <<< 64) (h : (e.window data).Holds offset.toNat bytes)
    (hsize : bytes.length = size.toNat) :
    (offset + size).toNat = offset.toNat + bytes.length := by
  have hle := h.le_limit
  rw [limit_window] at hle
  rw [UInt64.toNat_add, ← hsize]
  exact Nat.mod_eq_of_lt (Nat.lt_of_le_of_lt hle hdata)

theorem decodeAt_of_holds {α : Type} {dec : Decoder α} {a : α} {bytes : List UInt8}
    {offset : UInt64} (hdec : dec.Reads (e.region data) bytes a)
    (h : (e.window data).Holds offset.toNat bytes) : e.decodeAt data offset dec = .ok a := by
  have hle := h.le_limit
  rw [limit_window] at hle
  have hread : dec ⟨data, e.region data⟩ offset.toNat = .ok a (offset.toNat + bytes.length) :=
    hdec rfl h
  rw [decodeAt, if_neg (by omega), hread]

theorem exists_of_decodeAt_eq_ok {α : Type} {dec : Decoder α} {a : α} {offset : UInt64}
    (h : e.decodeAt data offset dec = .ok a) :
    ∃ next, dec (e.window data) offset.toNat = .ok a next := by
  rw [decodeAt] at h
  split at h
  · cases h
  · split at h
    · rename_i hdecode
      cases h
      exact ⟨_, hdecode⟩
    · cases h

theorem ofFile_of_holds {padding : List UInt8} (hpadding : padding.length = 10)
    (h : (e.window data).Holds 0 (e.magic ++ padding)) : Encoding.ofFile data = .ok e := by
  have hsize := h.le_limit
  rw [limit_window, List.length_append, hpadding] at hsize
  change 0 + (6 + 10) ≤ _ at hsize
  have hmagic : (e.window data).Holds 0
      ([0x7f, 0x45, 0x4c, 0x46] ++ ([e.fileClass.code] ++ [e.order.code])) :=
    (Window.holds_append.1 h).1
  obtain ⟨hstart, hcodes⟩ := Window.holds_append.1 hmagic
  obtain ⟨hclassCode, horderCode⟩ := Window.holds_append.1 hcodes
  have hstart : (data.extract 0 4).data = #[0x7f, 0x45, 0x4c, 0x46] :=
    Array.toList_inj.1 hstart.slice_eq
  have hclass : data[4] = e.fileClass.code := hclassCode.getElem _
  have horder : data[5] = e.order.code := horderCode.getElem _
  rw [Encoding.ofFile, dif_neg (by omega), if_neg (not_not.2 hstart), hclass, horder]
  obtain ⟨fileClass, order⟩ := e
  cases fileClass <;> cases order <;> rfl

end Encoding

namespace FileHeader

/-- The numbers of a header fit their fields. -/
structure Fits (e : Encoding) (h : FileHeader) : Prop where
  machine_lt : h.machine < 1 <<< (8 * 2)
  tableOffset_lt : h.tableOffset.toNat < 1 <<< (8 * e.fileClass.addressSize)
  entrySize_lt : h.entrySize < 1 <<< (8 * 2)
  count_lt : h.count < 1 <<< (8 * 2)
  nameIndex_lt : h.nameIndex < 1 <<< (8 * 2)

/-- The numbers of a header that no section depends on. -/
structure Unused where
  kind : Nat := 0
  version : Nat := 0
  entryPoint : Nat := 0
  programOffset : Nat := 0
  flags : Nat := 0
  headerSize : Nat := 0
  programEntrySize : Nat := 0
  programCount : Nat := 0

/-- The bytes of a header behind the first 16. -/
def bytes (e : Encoding) (h : FileHeader) (u : Unused) : List UInt8 :=
  e.order.encode 2 u.kind ++ (e.order.encode 2 h.machine ++ (e.order.encode 4 u.version ++
    (e.word u.entryPoint ++ (e.word u.programOffset ++ (e.word h.tableOffset.toNat ++
    (e.order.encode 4 u.flags ++ (e.order.encode 2 u.headerSize ++
    (e.order.encode 2 u.programEntrySize ++ (e.order.encode 2 u.programCount ++
    (e.order.encode 2 h.entrySize ++ (e.order.encode 2 h.count ++
    e.order.encode 2 h.nameIndex)))))))))))

theorem Fits.reads_decoder {e : Encoding} {data : ByteArray} {h : FileHeader} (hfits : h.Fits e)
    (u : Unused) : FileHeader.decoder.Reads (e.region data) (h.bytes e u) h := by
  obtain ⟨_, hentry⟩ := Encoding.reads_anyWord e data u.entryPoint
  obtain ⟨_, hprogram⟩ := Encoding.reads_anyWord e data u.programOffset
  have htable := Encoding.reads_word data hfits.tableOffset_lt
  have hlast := (reads_encode (r := e.region data) hfits.nameIndex_lt).bind_nil
    (f := fun nameIndex => pure { h with nameIndex }) (reads_pure h)
  refine (Encoding.reads_any u.kind).bind ((reads_encode hfits.machine_lt).bind
    ((Encoding.reads_any u.version).bind (hentry.bind (hprogram.bind (htable.bind
    ((Encoding.reads_any u.flags).bind ?_))))))
  exact (Encoding.reads_any u.headerSize).bind ((Encoding.reads_any u.programEntrySize).bind
    ((Encoding.reads_any u.programCount).bind ((reads_encode hfits.entrySize_lt).bind
      ((reads_encode hfits.count_lt).bind hlast))))

end FileHeader

namespace SectionHeader

structure Fits (e : Encoding) (h : SectionHeader) : Prop where
  nameOffset_lt : h.nameOffset < 1 <<< (8 * 4)
  kind_lt : h.kind < 1 <<< (8 * 4)
  flags_lt : h.flags.toNat < 1 <<< (8 * e.fileClass.addressSize)
  address_lt : h.address.toNat < 1 <<< (8 * e.fileClass.addressSize)
  offset_lt : h.offset.toNat < 1 <<< (8 * e.fileClass.addressSize)
  size_lt : h.size.toNat < 1 <<< (8 * e.fileClass.addressSize)
  link_lt : h.link < 1 <<< (8 * 4)
  info_lt : h.info < 1 <<< (8 * 4)
  entrySize_lt : h.entrySize.toNat < 1 <<< (8 * e.fileClass.addressSize)

/-- The bytes of a header. Its name stands elsewhere. -/
def bytes (e : Encoding) (h : SectionHeader) (alignment : Nat) : List UInt8 :=
  e.order.encode 4 h.nameOffset ++ (e.order.encode 4 h.kind ++ (e.word h.flags.toNat ++
    (e.word h.address.toNat ++ (e.word h.offset.toNat ++ (e.word h.size.toNat ++
    (e.order.encode 4 h.link ++ (e.order.encode 4 h.info ++ (e.word alignment ++
    e.word h.entrySize.toNat))))))))

def unnamed (h : SectionHeader) : SectionHeader := { h with name := "" }

theorem length_bytes (e : Encoding) (h : SectionHeader) (alignment : Nat) :
    (h.bytes e alignment).length = e.fileClass.sectionHeaderSize := by
  simp only [bytes, Encoding.word, List.length_append, ByteOrder.length_encode]
  cases e.fileClass <;> rfl

theorem Fits.reads_decoder {e : Encoding} {data : ByteArray} {h : SectionHeader}
    (hfits : h.Fits e) (alignment : Nat) :
    SectionHeader.decoder.Reads (e.region data) (h.bytes e alignment) h.unnamed := by
  obtain ⟨_, halignment⟩ := Encoding.reads_anyWord e data alignment
  have hflags := Encoding.reads_word data hfits.flags_lt
  have haddress := Encoding.reads_word data hfits.address_lt
  have hoffset := Encoding.reads_word data hfits.offset_lt
  have hsize := Encoding.reads_word data hfits.size_lt
  have hlast := (Encoding.reads_word data hfits.entrySize_lt).bind_nil
    (f := fun entrySize => pure { h.unnamed with entrySize }) (reads_pure h.unnamed)
  refine (reads_encode hfits.nameOffset_lt).bind ((reads_encode hfits.kind_lt).bind
    (hflags.bind (haddress.bind (hoffset.bind (hsize.bind ?_)))))
  exact (reads_encode hfits.link_lt).bind ((reads_encode hfits.info_lt).bind
    (halignment.bind hlast))

/-- The bytes of a section are those where its header says that it lies. -/
theorem contents?_of_holds {h : SectionHeader} {e : Encoding} {data : ByteArray}
    {contents : List UInt8} (hkind : h.kind ≠ 8) (hsize : h.size.toNat = contents.length)
    (hholds : (e.window data).Holds h.offset.toNat contents) :
    h.contents? data = some ⟨contents.toArray⟩ := by
  have hle := hholds.le_limit
  rw [Encoding.limit_window] at hle
  have hinside : ¬ (h.kind = 8 ∨ data.size < h.offset.toNat + h.size.toNat) := by omega
  have hslice : (data.extract h.offset.toNat (h.offset.toNat + contents.length)).data.toList =
      contents := hholds.slice_eq
  rw [contents?, if_neg hinside, hsize]
  exact congrArg some (ByteArray.ext (Array.toList_inj.1 hslice))

end SectionHeader

/-- The text up to the next zero byte is found behind as many bytes as its offset says. -/
theorem textAt?_of_isPrefix {table text : List UInt8} {offset : Nat} (hzero : 0 ∉ text)
    (h : text ++ [0] <+: table.drop offset) :
    textAt? ⟨table.toArray⟩ offset = some (Utf8.lossy text) := by
  obtain ⟨after, hafter⟩ := h
  have hoffset : (table.take offset).length = offset := by
    have hlength := congrArg List.length hafter
    simp only [List.length_append, List.length_drop, List.length_singleton] at hlength
    rw [List.length_take]
    omega
  have hsplit : table = table.take offset ++ (text ++ [0] ++ after) := by
    rw [hafter, List.take_append_drop]
  have hwhole : (Window.mk ⟨table.toArray⟩ (.whole ⟨table.toArray⟩ .little)).EndsWith 0 _ :=
    Window.endsWith_whole hsplit
  have htext := (Window.holds_append.1 (Window.holds_append.1 hwhole.holds).2).1
  rw [hoffset, Nat.zero_add] at htext
  rw [textAt?, reads_text hzero rfl htext]

/-- A string table has a text at an offset. -/
structure SpellsAt (table : List UInt8) (offset : Nat) (text : String) : Prop where
  zero_notMem : '\x00' ∉ text.toList
  isPrefix : Utf8.encode text ++ [0] <+: table.drop offset

theorem SpellsAt.textAt?_eq {table : List UInt8} {offset : Nat} {text : String}
    (h : SpellsAt table offset text) : textAt? ⟨table.toArray⟩ offset = some text := by
  rw [textAt?_of_isPrefix (Utf8.zero_notMem_encode h.zero_notMem) h.isPrefix, Utf8.lossy_encode]

end Elf

end StackSurvey
