import StackSurvey.Elf.Image
import StackSurvey.Proofs.Elf.HeaderBytes

namespace StackSurvey.Elf

open Dwarf (DebugSection Window)

structure WrittenHeader (e : Encoding) where
  header : SectionHeader
  alignment : Nat
  fits : header.Fits e

def WrittenHeader.bytes {e : Encoding} (h : WrittenHeader e) : List UInt8 :=
  h.header.bytes e h.alignment

/-- A section that has a name and bytes in the file. -/
structure WrittenSection (e : Encoding) extends WrittenHeader e where
  contents : List UInt8
  size_eq : header.size.toNat = contents.length
  name_ne : header.name ≠ ""
  -- The other kinds have the bytes that their headers say, this one has none.
  kind_ne : header.kind ≠ 8

/-- A number stands in its field, or the field has a mark and the number stands elsewhere. -/
def IsNumbered (field mark elsewhere n : Nat) : Prop :=
  field = n ∧ n ≠ mark ∨ field = mark ∧ elsewhere = n

theorem IsNumbered.ite_eq {field mark elsewhere n : Nat} (h : IsNumbered field mark elsewhere n) :
    (if field = mark then elsewhere else field) = n := by
  rcases h with ⟨rfl, hne⟩ | ⟨rfl, rfl⟩
  · exact if_neg hne
  · exact if_pos rfl

theorem isNumbered_ite (field mark elsewhere : Nat) :
    IsNumbered field mark elsewhere (if field = mark then elsewhere else field) := by
  by_cases h : field = mark
  · rw [if_pos h]
    exact .inr ⟨h, rfl⟩
  · rw [if_neg h]
    exact .inl ⟨rfl, h⟩

/-- What a file is written from. Section header 0 has no section; numbers that are too large for
the file header stand in it. -/
structure WrittenImage where
  encoding : Encoding
  fileHeader : FileHeader
  reserved : WrittenHeader encoding
  sections : List (WrittenSection encoding)
  /-- The section of the names of sections. -/
  names : WrittenSection encoding
  /-- The place of the section of names in the section table. -/
  nameIndex : Nat
  fits : fileHeader.Fits encoding
  tableOffset_ne : fileHeader.tableOffset ≠ 0
  entrySize_eq : fileHeader.entrySize = encoding.fileClass.sectionHeaderSize
  isNumbered_count :
    IsNumbered fileHeader.count 0 reserved.header.size.toNat (sections.length + 1)
  isNumbered_nameIndex : IsNumbered fileHeader.nameIndex 0xffff reserved.header.link nameIndex
  names_eq : ∃ place, nameIndex = place + 1 ∧ sections[place]? = some names
  reserved_name : reserved.header.name = ""
  spells_reserved : SpellsAt names.contents reserved.header.nameOffset reserved.header.name
  spells : ∀ s ∈ sections, SpellsAt names.contents s.header.nameOffset s.header.name

namespace WrittenImage

variable {x : WrittenImage} {data : ByteArray}

def headers (x : WrittenImage) : List (WrittenHeader x.encoding) :=
  x.reserved :: x.sections.map (·.toWrittenHeader)

/-- The last section with a name. -/
def lastNamed? (x : WrittenImage) (name : String) : Option (WrittenSection x.encoding) :=
  (x.sections.filter (·.header.name == name)).getLast?

/-- A file holds an image: the headers, and each section where its header says. Between them
there may be anything. -/
structure LiesIn (x : WrittenImage) (data : ByteArray) : Prop where
  size_lt : data.size < 1 <<< 64
  magic : ∃ padding, padding.length = 10 ∧
    (x.encoding.window data).Holds 0 (x.encoding.magic ++ padding)
  fileHeader : ∃ unused,
    (x.encoding.window data).Holds 16 (x.fileHeader.bytes x.encoding unused)
  table : (x.encoding.window data).Holds x.fileHeader.tableOffset.toNat
    (x.headers.flatMap (·.bytes))
  contents : ∀ s ∈ x.sections, (x.encoding.window data).Holds s.header.offset.toNat s.contents

theorem length_headers (x : WrittenImage) : x.headers.length = x.sections.length + 1 := by
  rw [headers, List.length_cons, List.length_map]

theorem names_mem (x : WrittenImage) : x.names ∈ x.sections := by
  obtain ⟨place, -, hplace⟩ := x.names_eq
  exact List.mem_of_getElem? hplace

theorem spells_headers (x : WrittenImage) :
    ∀ h ∈ x.headers, SpellsAt x.names.contents h.header.nameOffset h.header.name := by
  intro h hmem
  rw [headers, List.mem_cons, List.mem_map] at hmem
  rcases hmem with rfl | ⟨s, hs, rfl⟩
  · exact x.spells_reserved
  · exact x.spells s hs

/-- The file as it is read. -/
def image (x : WrittenImage) (data : ByteArray) : Image :=
  { x.encoding with
    data, machine := x.fileHeader.machine
    sections := (x.headers.map (·.header)).toArray }

theorem LiesIn.contents?_eq (h : x.LiesIn data) {s : WrittenSection x.encoding}
    (hs : s ∈ x.sections) : s.header.contents? data = some ⟨s.contents.toArray⟩ :=
  SectionHeader.contents?_of_holds s.kind_ne s.size_eq (h.contents s hs)

end WrittenImage

namespace Image

variable {e : Encoding} {data : ByteArray}

theorem sectionHeaders_of_holds (headers : List (WrittenHeader e)) {offset : UInt64}
    (hsize : data.size < 1 <<< 64)
    (h : (e.window data).Holds offset.toNat (headers.flatMap (·.bytes)))
    (before : Array SectionHeader) :
    sectionHeaders e data headers.length offset before =
      .ok (before ++ (headers.map (·.header.unnamed)).toArray) := by
  -- What is behind the first header is again a table, at an offset that does not wrap around.
  induction headers generalizing offset before with
  | nil =>
    rw [List.map_nil, Array.append_empty]
    rfl
  | cons header headers ih =>
    rw [List.flatMap_cons] at h
    obtain ⟨hfirst, hrest⟩ := Window.holds_append.1 h
    have hdecode := Encoding.decodeAt_of_holds (header.fits.reads_decoder header.alignment) hfirst
    have hlength : header.bytes.length = e.fileClass.sectionHeaderSize :=
      header.header.length_bytes e header.alignment
    have hle := hfirst.le_limit
    rw [Encoding.limit_window, hlength] at hle
    have hnext := e.fileClass.toNat_add_sectionHeaderSize (Nat.lt_of_le_of_lt hle hsize)
    rw [hlength, ← hnext] at hrest
    have hpush : before ++ ((header :: headers).map (·.header.unnamed)).toArray =
        before.push header.header.unnamed ++ (headers.map (·.header.unnamed)).toArray := by simp
    rw [List.length_cons, sectionHeaders, hdecode, hpush, ← ih hrest]
    rfl

theorem nameSections_of_spells {headers : List (WrittenHeader e)} {names : WrittenSection e}
    {index : Nat} (hindex : headers[index]? = some names.toWrittenHeader)
    (hnames : names.header.contents? data = some ⟨names.contents.toArray⟩)
    (hspells : ∀ h ∈ headers, SpellsAt names.contents h.header.nameOffset h.header.name) :
    nameSections data index (headers.map (·.header.unnamed)).toArray =
      (headers.map (·.header)).toArray := by
  have hget : (headers.map (·.header.unnamed)).toArray[index]? = some names.header.unnamed := by
    rw [List.getElem?_toArray, List.getElem?_map, hindex]
    rfl
  -- Its own name is not known yet when the section of names is looked up.
  have htable : names.header.unnamed.contents? data = some ⟨names.contents.toArray⟩ := hnames
  rw [nameSections, hget]
  simp only [htable, Option.bind_some, List.map_toArray, List.map_map]
  congr 1
  refine List.map_congr_left fun h hmem => ?_
  simp only [Function.comp_apply, SectionHeader.unnamed, (hspells h hmem).textAt?_eq,
    Option.getD_some]

/-- The section table is read where it lies in the file and says how long it is. -/
theorem sectionTable_of_le {header : FileHeader} {first : SectionHeader} {count nameIndex : Nat}
    (hoffset : header.tableOffset ≠ 0) (hentry : header.entrySize = e.fileClass.sectionHeaderSize)
    (hfirst : e.decodeAt data header.tableOffset SectionHeader.decoder = .ok first)
    (hcount : IsNumbered header.count 0 first.size.toNat count)
    (hname : IsNumbered header.nameIndex 0xffff first.link nameIndex)
    (hsize : data.size < 1 <<< 64)
    (hle : header.tableOffset.toNat + count * header.entrySize ≤ data.size) :
    sectionTable e data header =
      nameSections data nameIndex <$> sectionHeaders e data count header.tableOffset #[] := by
  have hoverflow : ¬ 0x10000000000000000 ≤ header.tableOffset.toNat + count * header.entrySize :=
    Nat.not_le_of_lt (Nat.lt_of_le_of_lt hle hsize)
  rw [sectionTable, if_neg hoffset, if_neg (not_not.2 hentry), hfirst]
  change (if _ then _ else _) = _
  rw [hcount.ite_eq, hname.ite_eq, if_neg hoverflow, if_neg (Nat.not_lt_of_le hle)]
  rfl

end Image

/-- A file has a file header and a table of section headers, of which one has their names. -/
structure HoldsHeaders {e : Encoding} (data : ByteArray) (fileHeader : FileHeader)
    (headers : List (WrittenHeader e)) (names : WrittenSection e) : Prop where
  size_lt : data.size < 1 <<< 64
  fits : fileHeader.Fits e
  tableOffset_ne : fileHeader.tableOffset ≠ 0
  entrySize_eq : fileHeader.entrySize = e.fileClass.sectionHeaderSize
  magic : ∃ padding, padding.length = 10 ∧ (e.window data).Holds 0 (e.magic ++ padding)
  holds_fileHeader : ∃ unused, (e.window data).Holds 16 (fileHeader.bytes e unused)
  table : (e.window data).Holds fileHeader.tableOffset.toNat (headers.flatMap (·.bytes))
  isNumbered : ∃ first rest nameIndex, headers = first :: rest ∧
    IsNumbered fileHeader.count 0 first.header.size.toNat headers.length ∧
    IsNumbered fileHeader.nameIndex 0xffff first.header.link nameIndex ∧
    headers[nameIndex]? = some names.toWrittenHeader
  holds_names : (e.window data).Holds names.header.offset.toNat names.contents
  spells : ∀ h ∈ headers, SpellsAt names.contents h.header.nameOffset h.header.name

theorem length_tableBytes {e : Encoding} (headers : List (WrittenHeader e)) :
    (headers.flatMap (·.bytes)).length = headers.length * e.fileClass.sectionHeaderSize :=
  length_flatMap_of_forall fun h _ => h.header.length_bytes e h.alignment

namespace HoldsHeaders

variable {e : Encoding} {data : ByteArray} {fileHeader : FileHeader}
  {headers : List (WrittenHeader e)} {names : WrittenSection e}

theorem sectionTable_eq (h : HoldsHeaders data fileHeader headers names) :
    Image.sectionTable e data fileHeader = .ok (headers.map (·.header)).toArray := by
  obtain ⟨first, rest, nameIndex, hcons, hcount, hname, hindex⟩ := h.isNumbered
  have hbytes : first.bytes ++ rest.flatMap (·.bytes) = headers.flatMap (·.bytes) := by
    rw [hcons, List.flatMap_cons]
  have hfirst := Encoding.decodeAt_of_holds (first.fits.reads_decoder first.alignment)
    (Window.holds_append.1 (hbytes ▸ h.table)).1
  have hheaders := Image.sectionHeaders_of_holds headers h.size_lt h.table #[]
  rw [Array.empty_append] at hheaders
  have hstop := h.table.le_limit
  rw [Encoding.limit_window, length_tableBytes, ← h.entrySize_eq] at hstop
  have hnames := SectionHeader.contents?_of_holds names.kind_ne names.size_eq h.holds_names
  have hsections := Image.nameSections_of_spells hindex hnames h.spells
  rw [Image.sectionTable_of_le h.tableOffset_ne h.entrySize_eq hfirst hcount hname h.size_lt hstop,
    hheaders, ← hsections]
  rfl

/-- The sections of a file are those of its headers. -/
theorem ofFile_eq (h : HoldsHeaders data fileHeader headers names) :
    Image.ofFile data =
      .ok { e with
        data, machine := fileHeader.machine, sections := (headers.map (·.header)).toArray } := by
  obtain ⟨padding, hpadding, hmagic⟩ := h.magic
  obtain ⟨unused, hbytes⟩ := h.holds_fileHeader
  have hheader : e.decodeAt data 16 FileHeader.decoder = .ok fileHeader :=
    Encoding.decodeAt_of_holds (h.fits.reads_decoder unused) hbytes
  rw [Image.ofFile, Encoding.ofFile_of_holds hpadding hmagic]
  change (e.decodeAt data 16 FileHeader.decoder >>= _) = _
  rw [hheader]
  change (Image.sectionTable e data fileHeader >>= _) = _
  rw [h.sectionTable_eq]
  rfl

end HoldsHeaders

namespace WrittenImage

variable {x : WrittenImage} {data : ByteArray}

theorem LiesIn.holdsHeaders (h : x.LiesIn data) :
    HoldsHeaders data x.fileHeader x.headers x.names where
  size_lt := h.size_lt
  fits := x.fits
  tableOffset_ne := x.tableOffset_ne
  entrySize_eq := x.entrySize_eq
  magic := h.magic
  holds_fileHeader := h.fileHeader
  table := h.table
  isNumbered := by
    obtain ⟨place, hplace, hnames⟩ := x.names_eq
    refine ⟨x.reserved, _, x.nameIndex, rfl, ?_, x.isNumbered_nameIndex, ?_⟩
    · rw [length_headers]
      exact x.isNumbered_count
    · rw [hplace, headers, List.getElem?_cons_succ, List.getElem?_map, hnames]
      rfl
  holds_names := h.contents _ x.names_mem
  spells := x.spells_headers

/-- A file that holds an image is read as that image. -/
theorem LiesIn.ofFile_eq (h : x.LiesIn data) : Image.ofFile data = .ok (x.image data) :=
  h.holdsHeaders.ofFile_eq

theorem lastNamed?_mem {name : String} {s : WrittenSection x.encoding}
    (h : x.lastNamed? name = some s) : s ∈ x.sections :=
  (List.mem_filter.1 (List.mem_of_getLast? h)).1

theorem sectionNamed?_image (x : WrittenImage) (data : ByteArray) (name : String) :
    (x.image data).sectionNamed? name = (x.lastNamed? name).map (·.header) := by
  rw [Image.sectionNamed?, lastNamed?]
  by_cases hname : name = ""
  · have hnone : x.sections.filter (·.header.name == name) = [] :=
      List.filter_eq_nil_iff.2 fun s _ => by simp [hname, s.name_ne]
    rw [hnone, hname]
    rfl
  · -- Section header 0 has no name, so no name finds it.
    have hempty : ¬ name.isEmpty = true := by rwa [String.isEmpty_iff]
    have hreserved : (x.reserved.header.name == name) = false := by
      rw [x.reserved_name]
      exact beq_false_of_ne (Ne.symm hname)
    rw [if_neg hempty, Array.findRev?_eq_find?_reverse, List.getLast?_filter]
    have hlast : (x.image data).sections.reverse =
        ((x.sections.reverse.map (·.header)) ++ [x.reserved.header]).toArray := by
      simp [image, headers]
    rw [hlast, List.find?_toArray, List.find?_append, List.find?_map, List.find?_singleton,
      hreserved, if_neg Bool.false_ne_true, Option.or_none]
    rfl

theorem LiesIn.contents?_image (h : x.LiesIn data) (name : String) :
    (x.image data).contents? name =
      (x.lastNamed? name).map fun s => ⟨s.contents.toArray⟩ := by
  rw [Image.contents?, sectionNamed?_image]
  cases hlast : x.lastNamed? name with
  | none => rfl
  | some s => exact h.contents?_eq (lastNamed?_mem hlast)

theorem LiesIn.get?_debugSections (h : x.LiesIn data) (s : DebugSection) :
    (x.image data).debugSections.get? s =
      (x.lastNamed? s.name).map fun s => ⟨s.contents.toArray⟩ := by
  rw [← h.contents?_image]
  cases s <;> rfl

def ArePacked {e : Encoding} : Nat → List (WrittenSection e) → Prop
  | _, [] => True
  | offset, s :: sections =>
    s.header.offset.toNat = offset ∧ ArePacked (offset + s.contents.length) sections

theorem ArePacked.holds {e : Encoding} {w : Window} {offset : Nat}
    {sections : List (WrittenSection e)} (h : ArePacked offset sections)
    (hholds : w.Holds offset (sections.flatMap (·.contents))) :
    ∀ s ∈ sections, w.Holds s.header.offset.toNat s.contents := by
  induction sections generalizing offset with
  | nil => exact List.forall_mem_nil _
  | cons s sections ih =>
    obtain ⟨hoffset, hrest⟩ := h
    rw [List.flatMap_cons] at hholds
    obtain ⟨hfirst, hsections⟩ := Window.holds_append.1 hholds
    rw [← hoffset] at hfirst
    exact List.forall_mem_cons.2 ⟨hfirst, ih hrest hsections⟩

/-- All of the file header, with zeros where a reader takes nothing from it. -/
def headBytes (x : WrittenImage) : List UInt8 :=
  x.encoding.magic ++ List.replicate 10 0 ++ x.fileHeader.bytes x.encoding {}

/-- The bytes of a file without gaps: the file header, the sections, the section table. -/
def packedBytes (x : WrittenImage) : List UInt8 :=
  x.headBytes ++ (x.sections.flatMap (·.contents) ++ x.headers.flatMap (·.bytes))

theorem length_packedBytes (x : WrittenImage) :
    x.packedBytes.length = x.headBytes.length + ((x.sections.flatMap (·.contents)).length +
      x.headers.length * x.encoding.fileClass.sectionHeaderSize) := by
  rw [packedBytes, List.length_append, List.length_append, length_tableBytes]

/-- The headers say that there are no gaps. -/
structure IsPacked (x : WrittenImage) : Prop where
  size_lt : x.packedBytes.length < 1 <<< 64
  arePacked : ArePacked x.headBytes.length x.sections
  tableOffset_eq : x.fileHeader.tableOffset.toNat =
    x.headBytes.length + (x.sections.flatMap (·.contents)).length

theorem IsPacked.liesIn (h : x.IsPacked) : x.LiesIn ⟨x.packedBytes.toArray⟩ := by
  have hall : (x.encoding.window ⟨x.packedBytes.toArray⟩).Holds 0 x.packedBytes :=
    Encoding.holds_window x.encoding x.packedBytes
  obtain ⟨hhead, hrest⟩ := Window.holds_append.1 hall
  obtain ⟨hmagic, hheader⟩ := Window.holds_append.1 hhead
  obtain ⟨hsections, htable⟩ := Window.holds_append.1 hrest
  rw [Nat.zero_add] at hsections htable
  rw [← h.tableOffset_eq] at htable
  exact {
    size_lt := h.size_lt
    magic := ⟨_, List.length_replicate, hmagic⟩
    fileHeader := ⟨{}, hheader⟩
    table := htable
    contents := h.arePacked.holds hsections }

end WrittenImage

end StackSurvey.Elf
