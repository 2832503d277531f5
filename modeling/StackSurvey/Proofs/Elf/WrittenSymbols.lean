import StackSurvey.Proofs.Elf.SymbolBytes
import StackSurvey.Proofs.Elf.WrittenImage
import StackSurvey.Proofs.SymbolTable.NameIndex

namespace StackSurvey.Elf

open Dwarf (DebugSection Window)

namespace Image

variable {f : Image}

/-- The section of symbols, that for the linker if there is no other. -/
def symbolSection? (f : Image) : Option SectionHeader :=
  (f.sectionNamed? ".symtab").or (f.sectionNamed? ".dynsym")

def entrySize (f : Image) (symbols : SectionHeader) : UInt64 :=
  if symbols.entrySize = 0 then f.fileClass.symbolSize else symbols.entrySize

/-- The number of entries, with the reserved one. -/
def entryCount (f : Image) (symbols : SectionHeader) : Nat :=
  (symbols.size / f.entrySize symbols).toNat

theorem addSymbols_of_decodeAt (names : Option ByteArray) {n : Nat}
    {offset entrySize : UInt64} {t : SymbolTable} {entry : SymbolEntry}
    (h : f.decodeAt f.data offset (SymbolEntry.decoder f.fileClass) = .ok entry) :
    f.addSymbols names entrySize (n + 1) offset t =
      f.addSymbols names entrySize n (offset + entrySize)
        ((f.symbol? names entry).elim t fun symbol => t.push { symbol }) := by
  rw [addSymbols, h]
  dsimp only [bind, Except.bind]
  cases f.symbol? names entry <;> rfl

theorem symbolTable_of_no_section (h : f.symbolSection? = none) :
    f.symbolTable = .ok (.empty f.sections.size) := by
  rw [symbolSection?] at h
  rw [symbolTable, Option.orElse_eq_orElse, Option.orElse_eq_or, h]
  rfl

section Links

variable {symbols strings : SectionHeader}

theorem symbolTable_of_no_strings (hsection : f.symbolSection? = some symbols)
    (hstrings : f.sections[symbols.link]? = none) : f.symbolTable = .error .noStringTable := by
  rw [symbolSection?] at hsection
  rw [symbolTable, Option.orElse_eq_orElse, Option.orElse_eq_or, hsection]
  simp only [hstrings]
  rfl

/-- The entries behind the first one of a symbol table are read with the names that it links to. -/
theorem symbolTable_of_section (hsection : f.symbolSection? = some symbols)
    (hstrings : f.sections[symbols.link]? = some strings) :
    f.symbolTable = f.addSymbols (strings.contents? f.data) (f.entrySize symbols)
      (f.entryCount symbols - 1) (symbols.offset + f.entrySize symbols)
      (.empty f.sections.size) := by
  rw [symbolSection?] at hsection
  rw [symbolTable, Option.orElse_eq_orElse, Option.orElse_eq_or, hsection]
  simp only [hstrings]
  rfl

end Links

end Image

namespace WrittenImage

variable {x : WrittenImage} {data : ByteArray}

/-- The section of symbols, that for the linker if there is no other. -/
def symbolSection? (x : WrittenImage) : Option (WrittenSection x.encoding) :=
  (x.lastNamed? ".symtab").or (x.lastNamed? ".dynsym")

def label? (x : WrittenImage) (index : Nat) : Option String :=
  match index with
  | 0 => some "UND"
  | 0xfff1 => some "ABS"
  | 0xfff2 => some "COM"
  | _ => x.headers[index]?.map (·.header.name)

def symbolNamed (x : WrittenImage) (s : WrittenSymbol x.encoding) (name : String) : Symbol where
  name := name
  value := s.value
  size := s.size
  kind := s.kind
  binding := s.binding
  visibility := s.visibility
  sectionIndex := s.sectionIndex
  sectionName := x.label? s.sectionIndex

/-- What is listed of a symbol: without a name it is nothing, unless it is that of a section. -/
def symbol? (x : WrittenImage) (s : WrittenSymbol x.encoding) : Option Symbol :=
  if s.name ≠ "" then some (x.symbolNamed s s.name)
  else if s.kind = .section then some (x.symbolNamed s ((x.label? s.sectionIndex).getD ""))
  else none

/-- A section has symbols: entry 0 is reserved, then there is an entry for each symbol. Their names
stand in the section that its header links to. -/
structure IsTable (x : WrittenImage) (table : WrittenSection x.encoding)
    (symbols : List (WrittenSymbol x.encoding)) : Prop where
  entrySize : table.header.entrySize = 0 ∨
    table.header.entrySize = x.encoding.fileClass.symbolSize
  contents : ∃ reserved, reserved.length = x.encoding.fileClass.symbolSize.toNat ∧
    table.contents = reserved ++ symbols.flatMap (·.bytes)
  names : ∃ place strings, table.header.link = place + 1 ∧ x.sections[place]? = some strings ∧
    ∀ s ∈ symbols, SpellsAt strings.contents s.nameOffset s.name

inductive Has (x : WrittenImage) : List (WrittenSymbol x.encoding) → Prop
  | none (h : x.symbolSection? = none) : Has x []
  | table {table : WrittenSection x.encoding} {symbols : List (WrittenSymbol x.encoding)}
      (h : x.symbolSection? = some table) (htable : x.IsTable table symbols) : Has x symbols

theorem sectionLabel?_image (x : WrittenImage) (data : ByteArray) (index : Nat) :
    (x.image data).sectionLabel? index = x.label? index := by
  have hget : (x.image data).sections[index]? = x.headers[index]?.map (·.header) := by
    rw [image, List.getElem?_toArray, List.getElem?_map]
  simp only [Image.sectionLabel?, label?, hget, Option.map_map]
  rfl

theorem symbol?_image {names : List UInt8} {s : WrittenSymbol x.encoding}
    (h : SpellsAt names s.nameOffset s.name) :
    (x.image data).symbol? (some ⟨names.toArray⟩) s.entry = x.symbol? s := by
  have hname : textAt? ⟨names.toArray⟩ s.entry.nameOffset = some s.name := h.textAt?_eq
  rw [Image.symbol?, Option.bind_some, hname, Option.getD_some, sectionLabel?_image,
    s.kind_ofInfo, s.binding_ofInfo, s.visibility_other, symbol?]
  by_cases hempty : s.name = ""
  · by_cases hkind : s.kind = .section
    · simp [hempty, hkind, symbolNamed, WrittenSymbol.entry]
    · simp [hempty, hkind]
  · simp [hempty, symbolNamed, WrittenSymbol.entry]

def listed (x : WrittenImage) (symbols : List (WrittenSymbol x.encoding)) : List AnnotatedSymbol :=
  (symbols.filterMap x.symbol?).map fun s => { symbol := s }

theorem LiesIn.addSymbols_eq (h : x.LiesIn data) {names : List UInt8}
    {symbols : List (WrittenSymbol x.encoding)} {offset : UInt64}
    (hnames : ∀ s ∈ symbols, SpellsAt names s.nameOffset s.name)
    (hholds : (x.encoding.window data).Holds offset.toNat (symbols.flatMap (·.bytes)))
    (t : SymbolTable) :
    (x.image data).addSymbols (some ⟨names.toArray⟩) x.encoding.fileClass.symbolSize
        symbols.length offset t =
      .ok ((x.listed symbols).foldl SymbolTable.push t) := by
  -- An entry that is not listed leaves the table as it is, so the table varies as the offset does.
  induction symbols generalizing offset t with
  | nil => rfl
  | cons s symbols ih =>
    obtain ⟨hname, hnames⟩ := List.forall_mem_cons.1 hnames
    rw [List.flatMap_cons] at hholds
    obtain ⟨hfirst, hrest⟩ := Window.holds_append.1 hholds
    have hdecode : (x.image data).decodeAt (x.image data).data offset
        (SymbolEntry.decoder (x.image data).fileClass) = .ok s.entry :=
      Encoding.decodeAt_of_holds s.fits_entry.reads_decoder hfirst
    have hnext := Encoding.toNat_add_of_holds h.size_lt hfirst (s.entry.length_bytes x.encoding)
    rw [← hnext] at hrest
    rw [List.length_cons, Image.addSymbols_of_decodeAt _ hdecode, symbol?_image hname,
      ih hnames hrest, listed, listed, List.filterMap_cons]
    cases x.symbol? s <;> rfl

theorem symbolSection?_mem {s : WrittenSection x.encoding} (h : x.symbolSection? = some s) :
    s ∈ x.sections := by
  rcases Option.or_eq_some_iff.1 h with hsymtab | ⟨_, hdynsym⟩
  · exact lastNamed?_mem hsymtab
  · exact lastNamed?_mem hdynsym

theorem symbolSection?_image (x : WrittenImage) (data : ByteArray) :
    (x.image data).symbolSection? = x.symbolSection?.map (·.header) := by
  rw [Image.symbolSection?, sectionNamed?_image, sectionNamed?_image, symbolSection?]
  cases x.lastNamed? ".symtab" <;> rfl

theorem IsTable.entrySize_eq {table : WrittenSection x.encoding}
    {symbols : List (WrittenSymbol x.encoding)} (h : x.IsTable table symbols) :
    (x.image data).entrySize table.header = x.encoding.fileClass.symbolSize := by
  rcases h.entrySize with hzero | hsize
  · exact if_pos hzero
  · exact (congrArg _ hsize).trans (ite_id _)

theorem IsTable.entryCount_eq {table : WrittenSection x.encoding}
    {symbols : List (WrittenSymbol x.encoding)} (h : x.IsTable table symbols) :
    (x.image data).entryCount table.header = symbols.length + 1 := by
  obtain ⟨reserved, hreserved, hcontents⟩ := h.contents
  have hlength : (symbols.flatMap (·.bytes)).length =
      symbols.length * x.encoding.fileClass.symbolSize.toNat :=
    length_flatMap_of_forall fun s _ => s.entry.length_bytes x.encoding
  have hpos : 0 < x.encoding.fileClass.symbolSize.toNat := by
    cases x.encoding.fileClass <;> decide
  rw [Image.entryCount, h.entrySize_eq, UInt64.toNat_div, table.size_eq, hcontents,
    List.length_append, hreserved, hlength, Nat.add_comm, ← Nat.succ_mul, Nat.mul_div_cancel _ hpos]

theorem LiesIn.symbolTable_eq (h : x.LiesIn data) {symbols : List (WrittenSymbol x.encoding)}
    (hsymbols : x.Has symbols) :
    (x.image data).symbolTable =
      .ok (.ofSymbols (x.sections.length + 1) (x.listed symbols)) := by
  have hsection := x.symbolSection?_image data
  have hsize : (x.image data).sections.size = x.sections.length + 1 := by
    rw [image, List.size_toArray, List.length_map, length_headers]
  cases hsymbols with
  | none hnone =>
    rw [hnone] at hsection
    rw [Image.symbolTable_of_no_section hsection, hsize]
    rfl
  | table htable hentries =>
    obtain ⟨reserved, hreserved, hcontents⟩ := hentries.contents
    obtain ⟨place, strings, hlink, hplace, hnames⟩ := hentries.names
    have hholds := h.contents _ (symbolSection?_mem htable)
    rw [hcontents] at hholds
    obtain ⟨hfirst, hrest⟩ := Window.holds_append.1 hholds
    rw [← Encoding.toNat_add_of_holds h.size_lt hfirst hreserved] at hrest
    have hstrings : (x.image data).sections[place + 1]? = some strings.header := by
      rw [image, List.getElem?_toArray, headers, List.map_cons, List.getElem?_cons_succ,
        List.map_map, List.getElem?_map, hplace]
      rfl
    rw [htable] at hsection
    rw [Image.symbolTable_of_section hsection (hlink ▸ hstrings), hentries.entrySize_eq,
      hentries.entryCount_eq, hsize]
    change Image.addSymbols _ (strings.header.contents? data) _ _ _ _ = _
    rw [h.contents?_eq (List.mem_of_getElem? hplace)]
    exact h.addSymbols_eq hnames hrest _

/-- A file that holds an image is read as its sections and symbols. -/
theorem ofFile_of_liesIn {symbols : List (WrittenSymbol x.encoding)} (h : x.LiesIn data)
    (hsymbols : x.Has symbols) :
    ∃ f, Image.ofFile data = .ok f ∧
      (∀ name, f.contents? name = (x.lastNamed? name).map fun s => ⟨s.contents.toArray⟩) ∧
      (∀ s, f.debugSections.get? s =
        (x.lastNamed? s.name).map fun s => ⟨s.contents.toArray⟩) ∧
      ∃ t, f.symbolTable = .ok t ∧ t.symbols.toList = x.listed symbols := by
  refine ⟨_, h.ofFile_eq, h.contents?_image, h.get?_debugSections, _,
    h.symbolTable_eq hsymbols, ?_⟩
  rw [SymbolTable.ofSymbols, SymbolTable.toList_symbols_foldl_push]
  rfl

end WrittenImage

def bigEncoding : Encoding := ⟨.bits32, .big⟩

def mainSymbol : WrittenSymbol bigEncoding where
  name := "main"
  nameOffset := 23
  value := 0x10
  size := 0x20
  kind := .func
  binding := .global
  visibility := 2
  otherBits := 0
  sectionIndex := 1
  isCoded_kind := ⟨by decide, fun _ h => SymbolKind.noConfusion h⟩
  isCoded_binding := ⟨by decide, fun _ h => SymbolBinding.noConfusion h⟩
  visibility_lt := by decide
  otherBits_lt := by decide
  nameOffset_lt := by decide
  value_lt := by decide
  size_lt := by decide
  sectionIndex_lt := by decide

def dataSymbol : WrittenSymbol bigEncoding :=
  { mainSymbol with
    name := "", nameOffset := 0, kind := .section
    isCoded_kind := ⟨by decide, fun _ h => SymbolKind.noConfusion h⟩
    nameOffset_lt := by decide }

def bigSection (name : String) (nameOffset kind : Nat) (offset : UInt64) (link : Nat)
    (contents : List UInt8) : SectionHeader where
  name := name
  nameOffset := nameOffset
  kind := kind
  flags := 0
  address := 0
  offset := offset
  size := .ofNat contents.length
  link := link
  info := 0
  entrySize := 0

def dataSection : WrittenSection bigEncoding where
  header := bigSection ".data" 1 1 52 0 [1, 2, 3]
  alignment := 0
  fits := by constructor <;> decide
  contents := [1, 2, 3]
  size_eq := rfl
  name_ne := by decide
  kind_ne := by decide

def symbolContents : List UInt8 :=
  List.replicate 16 0 ++ [mainSymbol, dataSymbol].flatMap (·.bytes)

def symbolSection : WrittenSection bigEncoding where
  header := bigSection ".symtab" 7 2 55 3 symbolContents
  alignment := 0
  fits := by constructor <;> decide
  contents := symbolContents
  size_eq := rfl
  name_ne := by decide
  kind_ne := by decide

def nameContents : List UInt8 :=
  ["", ".data", ".symtab", ".strtab", "main"].flatMap fun name => Utf8.encode name ++ [0]

def nameSection : WrittenSection bigEncoding where
  header := bigSection ".strtab" 15 3 103 0 nameContents
  alignment := 0
  fits := by constructor <;> decide
  contents := nameContents
  size_eq := rfl
  name_ne := by decide
  kind_ne := by decide

/-- An image whose section header 0 holds the number of section headers and the place of the
section of names. -/
def bigImage : WrittenImage where
  encoding := bigEncoding
  fileHeader :=
    { machine := 20, tableOffset := 131, entrySize := 40, count := 0, nameIndex := 0xffff }
  reserved :=
    { header := { nameOffset := 0, kind := 0, flags := 0, address := 0, offset := 0, size := 4
                  link := 3, info := 0, entrySize := 0 }
      alignment := 0
      fits := by constructor <;> decide }
  sections := [dataSection, symbolSection, nameSection]
  names := nameSection
  nameIndex := 3
  fits := by constructor <;> decide
  tableOffset_ne := by decide
  entrySize_eq := rfl
  isNumbered_count := .inr ⟨rfl, rfl⟩
  isNumbered_nameIndex := .inr ⟨rfl, rfl⟩
  names_eq := ⟨2, rfl, rfl⟩
  reserved_name := rfl
  spells_reserved := ⟨by decide, by decide⟩
  spells := by
    refine List.forall_mem_cons.2 ⟨⟨by decide, by decide⟩, ?_⟩
    refine List.forall_mem_cons.2 ⟨⟨by decide, by decide⟩, List.forall_mem_singleton.2 ?_⟩
    exact ⟨by decide, by decide⟩

theorem isPacked_bigImage : bigImage.IsPacked where
  size_lt := by
    rw [WrittenImage.length_packedBytes]
    decide
  arePacked := ⟨rfl, rfl, rfl, trivial⟩
  tableOffset_eq := rfl

theorem has_bigImage : bigImage.Has [mainSymbol, dataSymbol] := by
  have hsection : bigImage.symbolSection? = some symbolSection := rfl
  refine .table hsection ⟨.inl rfl, ⟨_, List.length_replicate, rfl⟩, 2, nameSection, rfl, rfl, ?_⟩
  refine List.forall_mem_cons.2 ⟨?_, List.forall_mem_singleton.2 ?_⟩
  · exact ⟨by decide, by decide⟩
  · exact ⟨by decide, by decide⟩

theorem ofFile_bigImage :
    ∃ f, Image.ofFile ⟨bigImage.packedBytes.toArray⟩ = .ok f ∧
      f.contents? ".data" = some ⟨#[1, 2, 3]⟩ ∧ f.contents? ".bss" = none ∧
      ∃ t, f.symbolTable = .ok t ∧
        t.symbols.toList.map (·.symbol.name) = ["main", ".data"] := by
  obtain ⟨f, hf, hcontents, -, t, ht, hsymbols⟩ :=
    WrittenImage.ofFile_of_liesIn isPacked_bigImage.liesIn has_bigImage
  refine ⟨f, hf, hcontents ".data", hcontents ".bss", t, ht, ?_⟩
  rw [hsymbols]
  rfl

end StackSurvey.Elf
