import StackSurvey.Proofs.Elf.EntryOffsets
import StackSurvey.Proofs.Elf.GuardedReading

namespace StackSurvey.Elf

open Dwarf (Decoder Window)

namespace Encoding

variable {e : Encoding} {data : ByteArray}

theorem holds_magic_of_ofFile (h : Encoding.ofFile data = .ok e) :
    (e.window data).Holds 0 e.magic := by
  by_cases hsize : data.size < 16
  · rw [Encoding.ofFile, dif_pos hsize] at h
    cases h
  by_cases hmagic : (data.extract 0 4).data = #[0x7f, 0x45, 0x4c, 0x46]
  · rw [Guarded.ofFile_eq_bind hsize (by omega) (by omega) hmagic] at h
    obtain ⟨fileClass, hclass, h⟩ := Image.exists_of_bind_eq_ok h
    obtain ⟨order, horder, h⟩ := Image.exists_of_bind_eq_ok h
    cases h
    have hlimit := limit_window ⟨fileClass, order⟩ data
    have hle : 4 ≤ data.size := by omega
    have hstart : (window ⟨fileClass, order⟩ data).Holds 0 [0x7f, 0x45, 0x4c, 0x46] :=
      ⟨hlimit ▸ hle, congrArg Array.toList hmagic⟩
    have hfourth : (window ⟨fileClass, order⟩ data).Holds 4 [data[4]] :=
      Window.holds_getElem (by omega) _
    have hfifth : (window ⟨fileClass, order⟩ data).Holds 5 [data[5]] :=
      Window.holds_getElem (by omega) _
    rw [Guarded.code_of_classOf hclass] at hfourth
    rw [Guarded.code_of_orderOf horder] at hfifth
    exact Window.holds_append.2 ⟨hstart, Window.holds_append.2 ⟨hfourth, hfifth⟩⟩
  · rw [Encoding.ofFile, dif_neg hsize, if_pos hmagic] at h
    cases h

end Encoding

namespace FileHeader

variable {e : Encoding} {data : ByteArray} {pos next : Nat} {header : FileHeader}

/-- A file header stands in a file. -/
structure StandsAt (e : Encoding) (data : ByteArray) (header : FileHeader) (pos : Nat) : Prop where
  fits : header.Fits e
  holds : ∃ unused, (e.window data).Holds pos (header.bytes e unused)

theorem standsAt_of_decoder
    (h : FileHeader.decoder (e.window data) pos = .ok header next) :
    header.StandsAt e data pos := by
  obtain ⟨kind, _, h₁, h⟩ := Decoder.bind_eq_ok h
  obtain ⟨machine, _, h₂, h⟩ := Decoder.bind_eq_ok h
  obtain ⟨version, _, h₃, h⟩ := Decoder.bind_eq_ok h
  obtain ⟨entryPoint, _, h₄, h⟩ := Decoder.bind_eq_ok h
  obtain ⟨programOffset, _, h₅, h⟩ := Decoder.bind_eq_ok h
  obtain ⟨tableOffset, _, h₆, h⟩ := Decoder.bind_eq_ok h
  obtain ⟨flags, _, h₇, h⟩ := Decoder.bind_eq_ok h
  obtain ⟨headerSize, _, h₈, h⟩ := Decoder.bind_eq_ok h
  obtain ⟨programEntrySize, _, h₉, h⟩ := Decoder.bind_eq_ok h
  obtain ⟨programCount, _, h₁₀, h⟩ := Decoder.bind_eq_ok h
  obtain ⟨entrySize, _, h₁₁, h⟩ := Decoder.bind_eq_ok h
  obtain ⟨count, _, h₁₂, h⟩ := Decoder.bind_eq_ok h
  obtain ⟨nameIndex, _, h₁₃, h⟩ := Decoder.bind_eq_ok h
  cases h
  obtain ⟨hkind, -, rfl⟩ := Decoder.holds_encode_of_unsigned h₁
  obtain ⟨hmachine, hmachineLt, rfl⟩ := Decoder.holds_encode_of_unsigned h₂
  obtain ⟨hversion, -, rfl⟩ := Decoder.holds_encode_of_unsigned h₃
  obtain ⟨hentryPoint, -, rfl⟩ := Decoder.holds_of_address h₄
  obtain ⟨hprogramOffset, -, rfl⟩ := Decoder.holds_of_address h₅
  obtain ⟨htable, htableLt, rfl⟩ := Decoder.holds_of_address h₆
  obtain ⟨hflags, -, rfl⟩ := Decoder.holds_encode_of_unsigned h₇
  obtain ⟨hsize, -, rfl⟩ := Decoder.holds_encode_of_unsigned h₈
  obtain ⟨hprogramSize, -, rfl⟩ := Decoder.holds_encode_of_unsigned h₉
  obtain ⟨hprogramCount, -, rfl⟩ := Decoder.holds_encode_of_unsigned h₁₀
  obtain ⟨hentrySize, hentrySizeLt, rfl⟩ := Decoder.holds_encode_of_unsigned h₁₁
  obtain ⟨hcount, hcountLt, rfl⟩ := Decoder.holds_encode_of_unsigned h₁₂
  obtain ⟨hname, hnameLt, -⟩ := Decoder.holds_encode_of_unsigned h₁₃
  refine ⟨⟨hmachineLt, htableLt, hentrySizeLt, hcountLt, hnameLt⟩, ⟨kind, version,
    entryPoint.toNat, programOffset.toNat, flags, headerSize, programEntrySize, programCount⟩, ?_⟩
  simp only [bytes, Window.holds_append, ByteOrder.length_encode, Encoding.word]
  exact ⟨hkind, hmachine, hversion, hentryPoint, hprogramOffset, htable, hflags, hsize,
    hprogramSize, hprogramCount, hentrySize, hcount, hname⟩

end FileHeader

namespace SectionHeader

variable {e : Encoding} {data : ByteArray} {pos next : Nat} {h : SectionHeader}

/-- The numbers of a section header stand in a file. -/
structure StandsAt (e : Encoding) (data : ByteArray) (h : SectionHeader) (pos : Nat) : Prop where
  fits : h.Fits e
  holds : ∃ alignment, (e.window data).Holds pos (h.bytes e alignment)

theorem standsAt_of_decoder (hread : SectionHeader.decoder (e.window data) pos = .ok h next) :
    h.StandsAt e data pos ∧ h.name = "" := by
  obtain ⟨nameOffset, _, h₁, hread⟩ := Decoder.bind_eq_ok hread
  obtain ⟨kind, _, h₂, hread⟩ := Decoder.bind_eq_ok hread
  obtain ⟨flags, _, h₃, hread⟩ := Decoder.bind_eq_ok hread
  obtain ⟨address, _, h₄, hread⟩ := Decoder.bind_eq_ok hread
  obtain ⟨offset, _, h₅, hread⟩ := Decoder.bind_eq_ok hread
  obtain ⟨size, _, h₆, hread⟩ := Decoder.bind_eq_ok hread
  obtain ⟨link, _, h₇, hread⟩ := Decoder.bind_eq_ok hread
  obtain ⟨info, _, h₈, hread⟩ := Decoder.bind_eq_ok hread
  obtain ⟨alignment, _, h₉, hread⟩ := Decoder.bind_eq_ok hread
  obtain ⟨entrySize, _, h₁₀, hread⟩ := Decoder.bind_eq_ok hread
  cases hread
  obtain ⟨hname, hnameLt, rfl⟩ := Decoder.holds_encode_of_unsigned h₁
  obtain ⟨hkind, hkindLt, rfl⟩ := Decoder.holds_encode_of_unsigned h₂
  obtain ⟨hflags, hflagsLt, rfl⟩ := Decoder.holds_of_address h₃
  obtain ⟨haddress, haddressLt, rfl⟩ := Decoder.holds_of_address h₄
  obtain ⟨hoffset, hoffsetLt, rfl⟩ := Decoder.holds_of_address h₅
  obtain ⟨hsize, hsizeLt, rfl⟩ := Decoder.holds_of_address h₆
  obtain ⟨hlink, hlinkLt, rfl⟩ := Decoder.holds_encode_of_unsigned h₇
  obtain ⟨hinfo, hinfoLt, rfl⟩ := Decoder.holds_encode_of_unsigned h₈
  obtain ⟨halignment, -, rfl⟩ := Decoder.holds_of_address h₉
  obtain ⟨hentrySize, hentrySizeLt, -⟩ := Decoder.holds_of_address h₁₀
  refine ⟨⟨⟨hnameLt, hkindLt, hflagsLt, haddressLt, hoffsetLt, hsizeLt, hlinkLt, hinfoLt,
    hentrySizeLt⟩, alignment.toNat, ?_⟩, rfl⟩
  simp only [bytes, Window.holds_append, ByteOrder.length_encode, Encoding.word]
  exact ⟨hname, hkind, hflags, haddress, hoffset, hsize, hlink, hinfo, halignment, hentrySize⟩

theorem standsAt_of_decodeAt {offset : UInt64}
    (hread : e.decodeAt data offset SectionHeader.decoder = .ok h) :
    h.StandsAt e data offset.toNat ∧ h.name = "" := by
  obtain ⟨next, hread⟩ := Encoding.exists_of_decodeAt_eq_ok hread
  exact standsAt_of_decoder hread

theorem StandsAt.named (hstands : h.StandsAt e data pos) (name : String) :
    StandsAt e data { h with name } pos where
  fits :=
    { nameOffset_lt := hstands.fits.nameOffset_lt
      kind_lt := hstands.fits.kind_lt
      flags_lt := hstands.fits.flags_lt
      address_lt := hstands.fits.address_lt
      offset_lt := hstands.fits.offset_lt
      size_lt := hstands.fits.size_lt
      link_lt := hstands.fits.link_lt
      info_lt := hstands.fits.info_lt
      entrySize_lt := hstands.fits.entrySize_lt }
  holds := hstands.holds

theorem StandsAt.decodeAt_eq {offset : UInt64} (hstands : h.StandsAt e data offset.toNat) :
    e.decodeAt data offset SectionHeader.decoder = .ok h.unnamed := by
  obtain ⟨alignment, hholds⟩ := hstands.holds
  exact Encoding.decodeAt_of_holds (hstands.fits.reads_decoder alignment) hholds

/-- What a section has in a file: the bytes of its range, or nothing if it is of the kind without
bytes or its range does not lie in the file. -/
inductive HasContents (data : ByteArray) (h : SectionHeader) : Option ByteArray → Prop
  | inside (hkind : h.kind ≠ 8) (hle : h.offset.toNat + h.size.toNat ≤ data.size)
      {bytes : List UInt8}
      (hbytes : (data.data.toList.drop h.offset.toNat).take h.size.toNat = bytes) :
      HasContents data h (some ⟨bytes.toArray⟩)
  | outside (hnone : h.kind = 8 ∨ data.size < h.offset.toNat + h.size.toNat) :
      HasContents data h none

theorem hasContents_contents? (h : SectionHeader) (data : ByteArray) :
    h.HasContents data (h.contents? data) := by
  by_cases hnone : h.kind = 8 ∨ data.size < h.offset.toNat + h.size.toNat
  · rw [contents?, if_pos hnone]
    exact .outside hnone
  · obtain ⟨hkind, hle⟩ := not_or.1 hnone
    have hbytes : (data.extract h.offset.toNat (h.offset.toNat + h.size.toNat)).data.toList =
        (data.data.toList.drop h.offset.toNat).take h.size.toNat := by
      rw [ByteArray.data_extract, Array.toList_extract, List.extract_eq_take_drop,
        Nat.add_sub_cancel_left]
    rw [contents?, if_neg hnone]
    exact .inside hkind (Nat.le_of_not_lt hle) hbytes.symm

end SectionHeader

/-- The name at an offset of a table of names: the text up to the next zero byte, or nothing if
there is no table or no such byte. -/
inductive IsNameAt (table : Option ByteArray) (offset : Nat) : String → Prop
  | text {names : ByteArray} (hnames : table = some names) {before after : List UInt8}
      (hbytes : names.data.toList.drop offset = before ++ 0 :: after) (hzero : 0 ∉ before) :
      IsNameAt table offset (Utf8.lossy before)
  | missing (hnone : ∀ names, table = some names → 0 ∉ names.data.toList.drop offset) :
      IsNameAt table offset ""

theorem textAt?_eq_none {table : ByteArray} {offset : Nat}
    (h : 0 ∉ table.data.toList.drop offset) : textAt? table offset = none := by
  have hguarded := Guarded.textAt?_eq table offset
  rw [Guarded.textAt?] at hguarded
  cases hfind : (Window.mk table (.whole table .little)).find? (· == 0) offset with
  | none =>
    rw [hfind] at hguarded
    exact (Except.ok.inj hguarded).symm
  | some stop =>
    obtain ⟨before, b, hholds, -, -, hb⟩ := Window.holds_of_find? hfind
    have hslice := hholds.slice_eq
    rw [Window.slice_eq_take] at hslice
    have hmem : b ∈ table.data.toList.drop offset := by
      apply List.mem_of_mem_take
      rw [hslice]
      exact List.mem_append_right _ (List.mem_singleton_self b)
    exact absurd (eq_of_beq hb ▸ hmem) h

theorem isNameAt_textAt? (table : Option ByteArray) (offset : Nat) :
    IsNameAt table offset ((table.bind (textAt? · offset)).getD "") := by
  cases table with
  | none => exact .missing fun names h => nomatch h
  | some names =>
    rw [Option.bind_some]
    by_cases hzero : 0 ∈ names.data.toList.drop offset
    · obtain ⟨before, after, hbytes, hbefore⟩ := List.eq_append_cons_of_mem hzero
      have htext := textAt?_of_isPrefix hbefore ⟨after, by rw [hbytes, List.append_assoc]; rfl⟩
      rw [Array.toArray_toList] at htext
      rw [htext]
      exact .text rfl hbytes hbefore
    · rw [textAt?_eq_none hzero]
      exact .missing fun names' h => Option.some.inj h ▸ hzero

namespace Image

variable {e : Encoding} {data : ByteArray} {offset : UInt64} {n : Nat}

/-- The section headers that are decoded stand one behind the other. -/
theorem standsAt_of_sectionHeaders {before headers : Array SectionHeader}
    (hdata : data.size < 1 <<< 64)
    (hle : offset.toNat + n * e.fileClass.sectionHeaderSize ≤ data.size)
    (h : sectionHeaders e data n offset before = .ok headers) :
    ∃ after : List SectionHeader, headers = before ++ after.toArray ∧ after.length = n ∧
      ∀ (i : Nat) s, after[i]? = some s →
        s.StandsAt e data (offset.toNat + i * e.fileClass.sectionHeaderSize) ∧ s.name = "" := by
  induction n generalizing offset before with
  | zero =>
    cases h
    exact ⟨[], Array.append_empty.symm, rfl, fun i s hs => nomatch hs⟩
  | succ n ih =>
    obtain ⟨first, hfirst, h⟩ := exists_of_bind_eq_ok h
    have hstep : (n + 1) * e.fileClass.sectionHeaderSize =
        n * e.fileClass.sectionHeaderSize + e.fileClass.sectionHeaderSize := Nat.succ_mul ..
    have hfits : offset.toNat + e.fileClass.sectionHeaderSize < 1 <<< 64 := by omega
    have hnext := e.fileClass.toNat_add_sectionHeaderSize hfits
    obtain ⟨after, rfl, hlength, hafter⟩ := ih (by omega) h
    refine ⟨first :: after, by simp, by rw [List.length_cons, hlength], fun i s hs => ?_⟩
    cases i with
    | zero =>
      cases hs
      rw [Nat.zero_mul, Nat.add_zero]
      exact SectionHeader.standsAt_of_decodeAt hfirst
    | succ i =>
      have hplace := hafter i s hs
      rwa [hnext, Nat.add_assoc, Nat.add_comm e.fileClass.sectionHeaderSize, ← Nat.succ_mul]
        at hplace

/-- The table of the names of sections, if there is one. -/
def nameTable? (data : ByteArray) (index : Nat) (headers : Array SectionHeader) :
    Option ByteArray :=
  headers[index]?.bind (·.contents? data)

theorem getElem?_nameSections {headers : Array SectionHeader} (index : Nat)
    (hnames : ∀ (i : Nat) s, headers[i]? = some s → s.name = "") (i : Nat) :
    (nameSections data index headers)[i]? = headers[i]?.map fun s =>
      { s with
        name := ((nameTable? data index headers).bind (textAt? · s.nameOffset)).getD "" } := by
  rw [nameSections, nameTable?]
  cases headers[index]? with
  | none =>
    cases hs : headers[i]? with
    | none => rfl
    | some s =>
      have hname := hnames i s hs
      obtain ⟨name⟩ := s
      cases hname
      rfl
  | some names =>
    dsimp only
    rw [Array.getElem?_map]
    rfl

theorem size_nameSections (index : Nat) (headers : Array SectionHeader) :
    (nameSections data index headers).size = headers.size := by
  rw [nameSections]
  cases headers[index]? with
  | none => rfl
  | some names => exact Array.size_map

/-- The sections of a file are those of a table that a file header tells of. The table lies in the
file, and the names stand in one of the sections. -/
structure HasSections (f : Image) (header : FileHeader) (nameIndex : Nat)
    (names : Option ByteArray) : Prop where
  table_le :
    header.tableOffset.toNat + f.sections.size * f.fileClass.sectionHeaderSize ≤ f.data.size
  isNumbered_size : ∀ first, f.sections[0]? = some first →
    IsNumbered header.count 0 first.size.toNat f.sections.size
  isNumbered_nameIndex : ∀ first, f.sections[0]? = some first →
    IsNumbered header.nameIndex 0xffff first.link nameIndex
  standsAt : ∀ (i : Nat) s, f.sections[i]? = some s → s.StandsAt f.toEncoding f.data
    (header.tableOffset.toNat + i * f.fileClass.sectionHeaderSize)
  hasContents_names : ∀ s, f.sections[nameIndex]? = some s → s.HasContents f.data names
  names_eq_none : f.sections[nameIndex]? = none → names = none
  isNameAt : ∀ (i : Nat) s, f.sections[i]? = some s → IsNameAt names s.nameOffset s.name

theorem hasSections_nameSections {header : FileHeader} {first : SectionHeader}
    {headers : Array SectionHeader} {count index machine : Nat} (hdata : data.size < 1 <<< 64)
    (hfirst : e.decodeAt data header.tableOffset SectionHeader.decoder = .ok first)
    (hcount : IsNumbered header.count 0 first.size.toNat count)
    (hindex : IsNumbered header.nameIndex 0xffff first.link index)
    (hle : header.tableOffset.toNat + count * e.fileClass.sectionHeaderSize ≤ data.size)
    (h : sectionHeaders e data count header.tableOffset #[] = .ok headers) :
    HasSections { e with data, machine, sections := nameSections data index headers } header index
      (nameTable? data index headers) := by
  obtain ⟨after, hheaders, hlength, hafter⟩ := standsAt_of_sectionHeaders hdata hle h
  rw [Array.empty_append] at hheaders
  subst hheaders
  have hget : ∀ (i : Nat) s, (nameSections data index after.toArray)[i]? = some s →
      ∃ s', after[i]? = some s' ∧ s =
        { s' with
          name :=
            ((nameTable? data index after.toArray).bind (textAt? · s'.nameOffset)).getD "" } := by
    intro i s hs
    rw [getElem?_nameSections index (fun i s hs => (hafter i s (by simpa using hs)).2),
      List.getElem?_toArray, Option.map_eq_some_iff] at hs
    obtain ⟨s', hs', rfl⟩ := hs
    exact ⟨s', hs', rfl⟩
  have hsize : (nameSections data index after.toArray).size = count := by
    rw [size_nameSections, List.size_toArray, hlength]
  -- The header that holds what is too large for the file header is the first of the table.
  have hread : ∀ s, (nameSections data index after.toArray)[0]? = some s →
      s.size = first.size ∧ s.link = first.link := by
    intro s hs
    obtain ⟨s', hs', rfl⟩ := hget 0 s hs
    have hstands := (hafter 0 s' hs').1
    rw [Nat.zero_mul, Nat.add_zero] at hstands
    obtain rfl := Except.ok.inj (hfirst.symm.trans hstands.decodeAt_eq)
    exact ⟨rfl, rfl⟩
  constructor
  · exact hsize.symm ▸ hle
  · intro s hs
    rw [(hread s hs).1]
    exact hsize.symm ▸ hcount
  · intro s hs
    rw [(hread s hs).2]
    exact hindex
  · intro i s hs
    obtain ⟨s', hs', rfl⟩ := hget i s hs
    exact (hafter i s' hs').1.named _
  · intro s hs
    obtain ⟨s', hs', rfl⟩ := hget index s hs
    have htable : nameTable? data index after.toArray = s'.contents? data := by
      rw [nameTable?, List.getElem?_toArray, hs']
      rfl
    rw [htable]
    exact SectionHeader.hasContents_contents? _ data
  · intro hs
    have hnone : after[index]? = none := by
      rw [← List.getElem?_toArray, Array.getElem?_eq_none_iff, ← size_nameSections index]
      exact Array.getElem?_eq_none_iff.1 hs
    rw [nameTable?, List.getElem?_toArray, hnone]
    rfl
  · intro i s hs
    obtain ⟨s', -, rfl⟩ := hget i s hs
    exact isNameAt_textAt? _ _

theorem hasSections_of_sectionTable {header : FileHeader} {sections : Array SectionHeader}
    (machine : Nat) (hdata : data.size < 1 <<< 64) (h : sectionTable e data header = .ok sections) :
    ∃ nameIndex names,
      HasSections { e with data, machine, sections } header nameIndex names := by
  by_cases hnone : header.tableOffset = 0
  · rw [sectionTable, if_pos hnone] at h
    cases h
    refine ⟨0, none, ?_, ?_, ?_, ?_, ?_, fun _ => rfl, ?_⟩
    · rw [hnone, List.size_toArray, List.length_nil, Nat.zero_mul]
      exact Nat.zero_le _
    all_goals simp
  by_cases hentry : header.entrySize = e.fileClass.sectionHeaderSize
  · rw [sectionTable, if_neg hnone, if_neg (not_not.2 hentry)] at h
    obtain ⟨first, hfirst, h⟩ := exists_of_bind_eq_ok h
    dsimp only at h
    generalize hcount : (if header.count = 0 then first.size.toNat else header.count) = count at h
    generalize hindex : (if header.nameIndex = 0xffff then first.link else header.nameIndex) =
      index at h
    by_cases hoverflow : 0x10000000000000000 ≤ header.tableOffset.toNat + count * header.entrySize
    · rw [if_pos hoverflow] at h
      cases h
    by_cases hstop : data.size < header.tableOffset.toNat + count * header.entrySize
    · rw [if_neg hoverflow, if_pos hstop] at h
      cases h
    rw [if_neg hoverflow, if_neg hstop] at h
    obtain ⟨headers, hheaders, h⟩ := exists_of_bind_eq_ok h
    cases h
    exact ⟨index, _, hasSections_nameSections hdata hfirst (hcount ▸ isNumbered_ite ..)
      (hindex ▸ isNumbered_ite ..) (hentry ▸ Nat.le_of_not_lt hstop) hheaders⟩
  · rw [sectionTable, if_neg hnone, if_pos hentry] at h
    cases h

/-- The last section with a name gives the bytes. -/
theorem exists_last_named {f : Image} {s : SectionHeader} (hs : s ∈ f.sections)
    (hname : s.name ≠ "") :
    ∃ (i : Nat) (last : SectionHeader), f.sections[i]? = some last ∧ last.name = s.name ∧
      (∀ (j : Nat) t, i < j → f.sections[j]? = some t → t.name ≠ s.name) ∧
      f.contents? s.name = last.contents? f.data := by
  have hempty : ¬ s.name.isEmpty = true := by rwa [String.isEmpty_iff]
  have hsome : (f.sections.toList.reverse.find? (·.name == s.name)).isSome = true :=
    List.find?_isSome.2 ⟨s, by simpa using hs, beq_self_eq_true s.name⟩
  obtain ⟨last, hlast⟩ := Option.isSome_iff_exists.1 hsome
  have hfound : f.sectionNamed? s.name = some last := by
    rw [sectionNamed?, if_neg hempty, Array.findRev?_eq_find?_reverse, ← hlast,
      ← List.find?_toArray, ← Array.toList_reverse, Array.toArray_toList]
  obtain ⟨hlastName, after, before, hsplit, hafter⟩ := List.find?_eq_some_iff_append.1 hlast
  have hlist : f.sections.toList = before.reverse ++ last :: after.reverse := by
    rw [← List.reverse_reverse f.sections.toList, hsplit]
    simp
  refine ⟨before.reverse.length, last, ?_, eq_of_beq hlastName, fun j t hj ht => ?_, ?_⟩
  · rw [← Array.getElem?_toList, hlist, List.getElem?_append_right (Nat.le_refl _), Nat.sub_self]
    rfl
  · obtain ⟨k, rfl⟩ := Nat.exists_eq_add_of_lt hj
    rw [← Array.getElem?_toList, hlist, Nat.add_assoc, List.getElem?_append_right (by omega),
      Nat.add_sub_cancel_left, List.getElem?_cons_succ] at ht
    have hother := hafter t (List.mem_reverse.1 (List.mem_of_getElem? ht))
    simpa using hother
  · rw [contents?, hfound]
    rfl

/-- A file is read without an access outside of it and without a number that leaves its word. What
is read of its sections is what stands in the file. -/
theorem ofFile_guarded (hdata : data.size < 1 <<< 64) :
    (Guarded.ofFile data).run = .ok (ofFile data) ∧
      ∀ f, ofFile data = .ok f →
        f.data = data ∧ (f.window data).Holds 0 f.magic ∧
        (∃ header nameIndex names, header.StandsAt f.toEncoding data 16 ∧
          f.HasSections header nameIndex names) ∧
        ∀ s ∈ f.sections, s.name ≠ "" → ∃ (i : Nat) (last : SectionHeader),
          f.sections[i]? = some last ∧ last.name = s.name ∧
          (∀ (j : Nat) t, i < j → f.sections[j]? = some t → t.name ≠ s.name) ∧
          last.HasContents data (f.contents? s.name) := by
  refine ⟨Guarded.run_ofFile hdata, fun f hf => ?_⟩
  obtain ⟨e, he, hf⟩ := exists_of_bind_eq_ok hf
  obtain ⟨header, hheader, hf⟩ := exists_of_bind_eq_ok hf
  obtain ⟨sections, hsections, hf⟩ := exists_of_bind_eq_ok hf
  cases hf
  obtain ⟨next, hheader⟩ := Encoding.exists_of_decodeAt_eq_ok hheader
  obtain ⟨nameIndex, names, hnames⟩ := hasSections_of_sectionTable header.machine hdata hsections
  refine ⟨rfl, Encoding.holds_magic_of_ofFile he,
    ⟨header, nameIndex, names, FileHeader.standsAt_of_decoder hheader, hnames⟩,
    fun s hs hname => ?_⟩
  obtain ⟨i, last, hlast, hlastName, hother, hcontents⟩ := exists_last_named hs hname
  exact ⟨i, last, hlast, hlastName, hother, hcontents ▸ last.hasContents_contents? data⟩

end Image

theorem ofFile_guarded_bigImage :
    let data : ByteArray := ⟨bigImage.packedBytes.toArray⟩
    data.size < 1 <<< 64 ∧ ∃ f, Image.ofFile data = .ok f ∧
      (Guarded.ofFile data).run = .ok (.ok f) ∧
      (∃ header nameIndex names, header.StandsAt f.toEncoding data 16 ∧
        f.HasSections header nameIndex names) ∧
      symbolSection.header ∈ f.sections ∧
      ∃ (i : Nat) (last : SectionHeader), f.sections[i]? = some last ∧ last.name = ".symtab" ∧
        (∀ (j : Nat) t, i < j → f.sections[j]? = some t → t.name ≠ ".symtab") ∧
        last.HasContents data (f.contents? ".symtab") := by
  have hsize : (⟨bigImage.packedBytes.toArray⟩ : ByteArray).size < 1 <<< 64 :=
    isPacked_bigImage.size_lt
  have hfile := isPacked_bigImage.liesIn.ofFile_eq
  have hmem : symbolSection.header ∈ (bigImage.image ⟨bigImage.packedBytes.toArray⟩).sections :=
    List.mem_toArray.2 (.tail _ (.tail _ (.head _)))
  obtain ⟨hguarded, hread⟩ := Image.ofFile_guarded hsize
  obtain ⟨-, -, hsections, hcontents⟩ := hread _ hfile
  exact ⟨hsize, _, hfile, hfile ▸ hguarded, hsections, hmem, hcontents _ hmem (by decide)⟩

end StackSurvey.Elf
