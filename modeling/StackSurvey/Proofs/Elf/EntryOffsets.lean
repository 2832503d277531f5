import StackSurvey.Proofs.Dwarf.Consumption
import StackSurvey.Proofs.Dwarf.UnitExtent
import StackSurvey.Proofs.Elf.WrittenSymbols

namespace StackSurvey

open Dwarf (Decoder Window)

namespace Dwarf.Decoder

variable {w : Window} {pos next : Nat}

theorem holds_of_byte {b : UInt8} (h : byte w pos = .ok b next) :
    w.Holds pos [b] ∧ next = pos + 1 := by
  rw [byte] at h
  split at h
  · rename_i hlt
    cases h
    exact ⟨Window.holds_getElem hlt (Window.lt_size_of_lt_limit hlt), rfl⟩
  · cases h

theorem holds_of_address {value : UInt64} (h : address w pos = .ok value next) :
    w.Holds pos (w.region.order.encode w.region.addressSize value.toNat) ∧
      value.toNat < 1 <<< (8 * w.region.addressSize) ∧ next = pos + w.region.addressSize := by
  obtain ⟨_, _, hregion, h⟩ := bind_eq_ok h
  cases hregion
  dsimp only at h
  split at h
  · rename_i hsize
    obtain ⟨hpos, hle⟩ := bounds_of_isAddressSize hsize
    rw [sized, if_neg (by omega)] at h
    obtain ⟨n, hread, rfl⟩ := map_eq_ok h
    obtain ⟨hholds, hlt, hnext⟩ := holds_encode_of_unsigned hread
    rw [toNat_ofNat_of_width_le hlt hle]
    exact ⟨hholds, hlt, hnext⟩
  · cases h

end Dwarf.Decoder

namespace Elf

variable {e : Encoding} {data : ByteArray} {pos next : Nat}

namespace SymbolEntry

/-- The bytes of an entry stand in a file. -/
structure StandsAt (e : Encoding) (data : ByteArray) (s : SymbolEntry) (pos : Nat) : Prop where
  fits : s.Fits e
  holds : (e.window data).Holds pos (s.bytes e)

variable {s : SymbolEntry}

theorem StandsAt.le_size (h : s.StandsAt e data pos) :
    pos + e.fileClass.symbolSize.toNat ≤ data.size := by
  have hle := h.holds.le_limit
  rwa [length_bytes, Encoding.limit_window] at hle

theorem StandsAt.decodeAt_eq {offset : UInt64} (h : s.StandsAt e data offset.toNat) :
    e.decodeAt data offset (SymbolEntry.decoder e.fileClass) = .ok s :=
  Encoding.decodeAt_of_holds h.fits.reads_decoder h.holds

theorem standsAt_of_decoder
    (h : SymbolEntry.decoder e.fileClass ⟨data, e.region data⟩ pos = .ok s next) :
    s.StandsAt e data pos := by
  obtain ⟨fileClass, order⟩ := e
  cases fileClass with
  | bits32 =>
    obtain ⟨nameOffset, _, h₁, h⟩ := Decoder.bind_eq_ok h
    obtain ⟨value, _, h₂, h⟩ := Decoder.bind_eq_ok h
    obtain ⟨size, _, h₃, h⟩ := Decoder.bind_eq_ok h
    obtain ⟨info, _, h₄, h⟩ := Decoder.bind_eq_ok h
    obtain ⟨other, _, h₅, h⟩ := Decoder.bind_eq_ok h
    obtain ⟨sectionIndex, _, h₆, h⟩ := Decoder.bind_eq_ok h
    cases h
    obtain ⟨hname, hnameLt, rfl⟩ := Decoder.holds_encode_of_unsigned h₁
    obtain ⟨hvalue, hvalueLt, rfl⟩ := Decoder.holds_of_address h₂
    obtain ⟨hsize, hsizeLt, rfl⟩ := Decoder.holds_of_address h₃
    obtain ⟨hinfo, rfl⟩ := Decoder.holds_of_byte h₄
    obtain ⟨hother, rfl⟩ := Decoder.holds_of_byte h₅
    obtain ⟨hindex, hindexLt, -⟩ := Decoder.holds_encode_of_unsigned h₆
    refine ⟨⟨hnameLt, hvalueLt, hsizeLt, hindexLt⟩, ?_⟩
    simp only [bytes, Window.holds_append, ByteOrder.length_encode, Encoding.word,
      List.length_singleton]
    exact ⟨hname, hvalue, hsize, hinfo, hother, hindex⟩
  | bits64 =>
    obtain ⟨nameOffset, _, h₁, h⟩ := Decoder.bind_eq_ok h
    obtain ⟨info, _, h₂, h⟩ := Decoder.bind_eq_ok h
    obtain ⟨other, _, h₃, h⟩ := Decoder.bind_eq_ok h
    obtain ⟨sectionIndex, _, h₄, h⟩ := Decoder.bind_eq_ok h
    obtain ⟨value, _, h₅, h⟩ := Decoder.bind_eq_ok h
    obtain ⟨size, _, h₆, h⟩ := Decoder.bind_eq_ok h
    cases h
    obtain ⟨hname, hnameLt, rfl⟩ := Decoder.holds_encode_of_unsigned h₁
    obtain ⟨hinfo, rfl⟩ := Decoder.holds_of_byte h₂
    obtain ⟨hother, rfl⟩ := Decoder.holds_of_byte h₃
    obtain ⟨hindex, hindexLt, rfl⟩ := Decoder.holds_encode_of_unsigned h₄
    obtain ⟨hvalue, hvalueLt, rfl⟩ := Decoder.holds_of_address h₅
    obtain ⟨hsize, hsizeLt, -⟩ := Decoder.holds_of_address h₆
    refine ⟨⟨hnameLt, hvalueLt, hsizeLt, hindexLt⟩, ?_⟩
    simp only [bytes, Window.holds_append, ByteOrder.length_encode, Encoding.word,
      List.length_singleton]
    exact ⟨hname, hinfo, hother, hindex, hvalue, hsize⟩

theorem standsAt_of_decodeAt {offset : UInt64}
    (h : e.decodeAt data offset (SymbolEntry.decoder e.fileClass) = .ok s) :
    s.StandsAt e data offset.toNat := by
  obtain ⟨next, hdecode⟩ := Encoding.exists_of_decodeAt_eq_ok h
  exact standsAt_of_decoder hdecode

theorem exists_word (order : ByteOrder) {width : Nat} {bytes : List UInt8} (hle : width ≤ 8)
    (h : width ≤ bytes.length) :
    ∃ (n : UInt64) (rest : List UInt8),
      bytes = order.encode width n.toNat ++ rest ∧ n.toNat < 1 <<< (8 * width) := by
  obtain ⟨n, rest, rfl, hn⟩ := order.exists_encode h
  refine ⟨.ofNat n, rest, ?_⟩
  rw [Dwarf.toNat_ofNat_of_width_le hn hle]
  exact ⟨rfl, hn⟩

/-- Whatever bytes there are, as many as an entry has are an entry. -/
theorem exists_bytes_eq (e : Encoding) {bytes : List UInt8}
    (h : bytes.length = e.fileClass.symbolSize.toNat) :
    ∃ s : SymbolEntry, s.Fits e ∧ s.bytes e = bytes := by
  obtain ⟨fileClass, order⟩ := e
  cases fileClass with
  | bits32 =>
    have h : bytes.length = 16 := h
    obtain ⟨nameOffset, rest, rfl, hname⟩ := order.exists_encode (show 4 ≤ bytes.length by omega)
    rw [List.length_append, ByteOrder.length_encode] at h
    obtain ⟨value, rest, rfl, hvalue⟩ :=
      exists_word order (by decide) (show 4 ≤ rest.length by omega)
    rw [List.length_append, ByteOrder.length_encode] at h
    obtain ⟨size, rest, rfl, hsize⟩ := exists_word order (by decide) (show 4 ≤ rest.length by omega)
    rw [List.length_append, ByteOrder.length_encode] at h
    obtain ⟨info, rest, rfl⟩ := List.exists_cons_of_length_pos (show 0 < rest.length by omega)
    rw [List.length_cons] at h
    obtain ⟨other, rest, rfl⟩ := List.exists_cons_of_length_pos (show 0 < rest.length by omega)
    rw [List.length_cons] at h
    obtain ⟨sectionIndex, rest, rfl, hindex⟩ := order.exists_encode (show 2 ≤ rest.length by omega)
    rw [List.length_append, ByteOrder.length_encode] at h
    obtain rfl := List.length_eq_zero_iff.1 (show rest.length = 0 by omega)
    refine ⟨{ nameOffset, value, size, info, other, sectionIndex },
      ⟨hname, hvalue, hsize, hindex⟩, ?_⟩
    rw [List.append_nil]
    rfl
  | bits64 =>
    have h : bytes.length = 24 := h
    obtain ⟨nameOffset, rest, rfl, hname⟩ := order.exists_encode (show 4 ≤ bytes.length by omega)
    rw [List.length_append, ByteOrder.length_encode] at h
    obtain ⟨info, rest, rfl⟩ := List.exists_cons_of_length_pos (show 0 < rest.length by omega)
    rw [List.length_cons] at h
    obtain ⟨other, rest, rfl⟩ := List.exists_cons_of_length_pos (show 0 < rest.length by omega)
    rw [List.length_cons] at h
    obtain ⟨sectionIndex, rest, rfl, hindex⟩ := order.exists_encode (show 2 ≤ rest.length by omega)
    rw [List.length_append, ByteOrder.length_encode] at h
    obtain ⟨value, rest, rfl, hvalue⟩ :=
      exists_word order (by decide) (show 8 ≤ rest.length by omega)
    rw [List.length_append, ByteOrder.length_encode] at h
    obtain ⟨size, rest, rfl, hsize⟩ := exists_word order (by decide) (show 8 ≤ rest.length by omega)
    rw [List.length_append, ByteOrder.length_encode] at h
    obtain rfl := List.length_eq_zero_iff.1 (show rest.length = 0 by omega)
    refine ⟨{ nameOffset, value, size, info, other, sectionIndex },
      ⟨hname, hvalue, hsize, hindex⟩, ?_⟩
    rw [List.append_nil]
    rfl

theorem exists_standsAt (h : pos + e.fileClass.symbolSize.toNat ≤ data.size) :
    ∃ s : SymbolEntry, s.StandsAt e data pos := by
  rw [← e.limit_window data] at h
  have hlength := Window.length_slice h
  obtain ⟨s, hfits, hbytes⟩ := exists_bytes_eq e hlength
  refine ⟨s, hfits, ?_⟩
  rw [hbytes]
  exact ⟨hlength.symm ▸ h, by rw [hlength]⟩

end SymbolEntry

namespace Image

variable {f : Image}

/-- What is listed of entries. -/
def listed (f : Image) (names : Option ByteArray) (entries : List SymbolEntry) :
    List AnnotatedSymbol :=
  (entries.filterMap (f.symbol? names)).map fun s => { symbol := s }

/-- The offset of an entry, which may be too large for a word. -/
def entryOffset (f : Image) (symbols : SectionHeader) (i : Nat) : Nat :=
  symbols.offset.toNat + i * (f.entrySize symbols).toNat

/-- The symbols of a file are those of the entries that stand at some places, and it is an error if
one of these entries does not lie in the file. -/
structure ReadsAt (f : Image) (symbols strings : SectionHeader) (place : Nat → Nat) : Prop where
  exists_ok_iff : (∃ t, f.symbolTable = .ok t) ↔
    ∀ i, 0 < i → i < f.entryCount symbols →
      place i + f.fileClass.symbolSize.toNat ≤ f.data.size
  exists_entries : ∀ t, f.symbolTable = .ok t →
    ∃ entries : List SymbolEntry, entries.length = f.entryCount symbols - 1 ∧
      (∀ (i : Nat) s, entries[i]? = some s → s.StandsAt f.toEncoding f.data (place (i + 1))) ∧
      t.symbols.toList = f.listed (strings.contents? f.data) entries

section Entries

variable {names : Option ByteArray} {offset entrySize : UInt64} {n : Nat} {t t' : SymbolTable}

theorem mod_word_succ (offset entrySize : UInt64) (i : Nat) :
    ((offset + entrySize).toNat + i * entrySize.toNat) % 1 <<< 64 =
      (offset.toNat + (i + 1) * entrySize.toNat) % 1 <<< 64 := by
  have hword : (1 <<< 64 : Nat) = 2 ^ 64 := by decide
  rw [hword, UInt64.toNat_add, Nat.mod_add_mod, Nat.succ_mul, Nat.add_assoc,
    Nat.add_comm entrySize.toNat]

theorem mod_word_zero (offset entrySize : UInt64) :
    (offset.toNat + 0 * entrySize.toNat) % 1 <<< 64 = offset.toNat := by
  rw [Nat.zero_mul, Nat.add_zero]
  exact Nat.mod_eq_of_lt offset.toNat_lt

theorem exists_entries_of_addSymbols (h : f.addSymbols names entrySize n offset t = .ok t') :
    ∃ entries : List SymbolEntry, entries.length = n ∧
      (∀ (i : Nat) s, entries[i]? = some s → s.StandsAt f.toEncoding f.data
        ((offset.toNat + i * entrySize.toNat) % 1 <<< 64)) ∧
      t' = (f.listed names entries).foldl SymbolTable.push t := by
  induction n generalizing offset t with
  | zero =>
    cases h
    exact ⟨[], rfl, by simp, rfl⟩
  | succ n ih =>
    cases hdecode : f.decodeAt f.data offset (SymbolEntry.decoder f.fileClass) with
    | error fault =>
      rw [addSymbols, hdecode] at h
      cases h
    | ok s =>
      rw [addSymbols_of_decodeAt names hdecode] at h
      obtain ⟨entries, hlength, hstands, hfold⟩ := ih h
      refine ⟨s :: entries, by rw [List.length_cons, hlength], ?_, ?_⟩
      · intro i s' hs'
        cases i with
        | zero =>
          cases hs'
          rw [mod_word_zero]
          exact SymbolEntry.standsAt_of_decodeAt hdecode
        | succ i =>
          rw [← mod_word_succ]
          exact hstands i s' hs'
      · rw [hfold, listed, listed, List.filterMap_cons]
        cases f.symbol? names s <;> rfl

theorem exists_addSymbols_eq_ok
    (h : ∀ i < n, (offset.toNat + i * entrySize.toNat) % 1 <<< 64 +
      f.fileClass.symbolSize.toNat ≤ f.data.size) (t : SymbolTable) :
    ∃ t', f.addSymbols names entrySize n offset t = .ok t' := by
  induction n generalizing offset t with
  | zero => exact ⟨t, rfl⟩
  | succ n ih =>
    have hfirst := h 0 (Nat.succ_pos n)
    rw [mod_word_zero] at hfirst
    obtain ⟨s, hs⟩ := SymbolEntry.exists_standsAt hfirst
    rw [addSymbols_of_decodeAt names hs.decodeAt_eq]
    refine ih (fun i hi => ?_) _
    rw [mod_word_succ]
    exact h (i + 1) (Nat.succ_lt_succ hi)

end Entries

section Table

variable {symbols strings : SectionHeader}

theorem ReadsAt.congr {place place' : Nat → Nat} (h : f.ReadsAt symbols strings place)
    (hplace : ∀ i < f.entryCount symbols, place i = place' i) :
    f.ReadsAt symbols strings place' where
  exists_ok_iff := by
    rw [h.exists_ok_iff]
    refine forall_congr' fun i => imp_congr_right fun _ => forall_congr' fun hi => ?_
    rw [hplace i hi]
  exists_entries t ht := by
    obtain ⟨entries, hlength, hstands, hlisted⟩ := h.exists_entries t ht
    refine ⟨entries, hlength, fun i s hs => ?_, hlisted⟩
    have hi := (List.getElem?_eq_some_iff.1 hs).1
    rw [← hplace (i + 1) (by omega)]
    exact hstands i s hs

theorem exists_entries_of_symbolTable (hsymbols : f.symbolSection? = some symbols)
    (hstrings : f.sections[symbols.link]? = some strings) {t : SymbolTable}
    (ht : f.symbolTable = .ok t) :
    ∃ entries : List SymbolEntry, entries.length = f.entryCount symbols - 1 ∧
      (∀ (i : Nat) s, entries[i]? = some s → s.StandsAt f.toEncoding f.data
        (f.entryOffset symbols (i + 1) % 1 <<< 64)) ∧
      t.symbols.toList = f.listed (strings.contents? f.data) entries := by
  rw [symbolTable_of_section hsymbols hstrings] at ht
  obtain ⟨entries, hlength, hstands, rfl⟩ := exists_entries_of_addSymbols ht
  refine ⟨entries, hlength, fun i s hs => ?_, ?_⟩
  · have hstandsAt := hstands i s hs
    rwa [mod_word_succ] at hstandsAt
  · rw [SymbolTable.toList_symbols_foldl_push]
    rfl

/-- Entries are read at their offsets modulo the size of a word. -/
theorem readsAt_mod_word (hsymbols : f.symbolSection? = some symbols)
    (hstrings : f.sections[symbols.link]? = some strings) :
    f.ReadsAt symbols strings fun i => f.entryOffset symbols i % 1 <<< 64 where
  exists_ok_iff := by
    constructor
    · rintro ⟨t, ht⟩ i hpos hi
      obtain ⟨entries, hlength, hstands, -⟩ := exists_entries_of_symbolTable hsymbols hstrings ht
      obtain ⟨i, rfl⟩ := Nat.exists_eq_add_one.2 hpos
      have hget := List.getElem?_eq_getElem (l := entries) (i := i) (by omega)
      exact (hstands i _ hget).le_size
    · intro h
      rw [symbolTable_of_section hsymbols hstrings]
      refine exists_addSymbols_eq_ok (fun i hi => ?_) _
      rw [mod_word_succ]
      exact h (i + 1) (Nat.succ_pos i) (by omega)
  exists_entries _ ht := exists_entries_of_symbolTable hsymbols hstrings ht

theorem entryOffset_zero (f : Image) (symbols : SectionHeader) :
    f.entryOffset symbols 0 = symbols.offset.toNat := by
  rw [entryOffset, Nat.zero_mul, Nat.add_zero]

theorem mul_entrySize_lt {i : Nat} (h : i < f.entryCount symbols) :
    i * (f.entrySize symbols).toNat < 1 <<< 64 := by
  have hle : f.entryCount symbols * (f.entrySize symbols).toNat ≤ symbols.size.toNat := by
    rw [entryCount, UInt64.toNat_div]
    exact Nat.div_mul_le_self ..
  calc
    i * (f.entrySize symbols).toNat ≤ f.entryCount symbols * (f.entrySize symbols).toNat :=
      Nat.mul_le_mul_right _ (Nat.le_of_lt h)
    _ ≤ symbols.size.toNat := hle
    _ < 1 <<< 64 := symbols.size.toNat_lt

/-- Entries are read at their very offsets if all of these are words, and an entry whose offset is
not is an error only if some entry does not lie in the file all the same. -/
theorem readsAt_entryOffset_iff (hsize : f.data.size < 1 <<< 64)
    (hsymbols : f.symbolSection? = some symbols)
    (hstrings : f.sections[symbols.link]? = some strings) :
    f.ReadsAt symbols strings (f.entryOffset symbols) ↔
      (∀ i < f.entryCount symbols, f.entryOffset symbols i < 1 <<< 64) ∨
        ∃ i, 0 < i ∧ i < f.entryCount symbols ∧
          f.data.size < f.entryOffset symbols i % 1 <<< 64 + f.fileClass.symbolSize.toNat := by
  have hwrapped := readsAt_mod_word hsymbols hstrings
  constructor
  · intro hexact
    by_cases hok : ∃ t, f.symbolTable = .ok t
    · -- What is read where its offset says lies in the file, whose size is a word.
      refine .inl fun i hi => ?_
      rcases Nat.eq_zero_or_pos i with rfl | hpos
      · rw [entryOffset_zero]
        exact symbols.offset.toNat_lt
      · have hfits := hexact.exists_ok_iff.1 hok i hpos hi
        omega
    · refine .inr (Classical.byContradiction fun hinside => hok (hwrapped.exists_ok_iff.2 ?_))
      exact fun i hpos hi => Nat.le_of_not_lt fun hlt => hinside ⟨i, hpos, hi, hlt⟩
  · rintro (hall | ⟨i, hpos, hi, houtside⟩)
    · exact hwrapped.congr fun i hi => Nat.mod_eq_of_lt (hall i hi)
    · -- No entry is read if one of them is an error, wherever the others are.
      have hnone : ¬ ∃ t, f.symbolTable = .ok t := by
        intro hok
        have hfits := hwrapped.exists_ok_iff.1 hok i hpos hi
        omega
      refine ⟨⟨fun hok => absurd hok hnone, fun hfits => absurd hfits fun hfits => ?_⟩,
        fun t ht => absurd ⟨t, ht⟩ hnone⟩
      have hle := hfits i hpos hi
      rw [Nat.mod_eq_of_lt (by omega)] at houtside
      omega

end Table

theorem exists_of_bind_eq_ok {ε α β : Type} {x : Except ε α} {g : α → Except ε β} {b : β}
    (h : x >>= g = .ok b) : ∃ a, x = .ok a ∧ g a = .ok b := by
  cases x with
  | error fault => cases h
  | ok a => exact ⟨a, rfl, h⟩

theorem data_of_ofFile {data : ByteArray} (h : Image.ofFile data = .ok f) : f.data = data := by
  obtain ⟨e, -, h⟩ := exists_of_bind_eq_ok h
  obtain ⟨header, -, h⟩ := exists_of_bind_eq_ok h
  obtain ⟨sections, -, h⟩ := exists_of_bind_eq_ok h
  cases h
  rfl

/-- The offset of an entry in its table is a word, but that in the file need not be. -/
theorem symbolTable_readsAt {data : ByteArray} (hfile : Image.ofFile data = .ok f) :
    f.data = data ∧ (f.symbolSection? = none → f.symbolTable = .ok (.empty f.sections.size)) ∧
      ∀ symbols, f.symbolSection? = some symbols →
        (∀ i < f.entryCount symbols, i * (f.entrySize symbols).toNat < 1 <<< 64) ∧
        (f.sections[symbols.link]? = none → f.symbolTable = .error .noStringTable) ∧
        ∀ strings, f.sections[symbols.link]? = some strings →
          f.ReadsAt symbols strings (fun i => f.entryOffset symbols i % 1 <<< 64) ∧
          (data.size < 1 <<< 64 →
            (f.ReadsAt symbols strings (f.entryOffset symbols) ↔
              (∀ i < f.entryCount symbols, f.entryOffset symbols i < 1 <<< 64) ∨
                ∃ i, 0 < i ∧ i < f.entryCount symbols ∧ data.size <
                  f.entryOffset symbols i % 1 <<< 64 + f.fileClass.symbolSize.toNat)) := by
  obtain rfl := data_of_ofFile hfile
  refine ⟨rfl, symbolTable_of_no_section, fun symbols hsymbols => ?_⟩
  refine ⟨fun _ => mul_entrySize_lt, symbolTable_of_no_strings hsymbols, fun strings hstrings => ?_⟩
  exact ⟨readsAt_mod_word hsymbols hstrings,
    fun hsize => readsAt_entryOffset_iff hsize hsymbols hstrings⟩

end Image

theorem symbolTable_readsAt_bigImage :
    ∃ f, Image.ofFile ⟨bigImage.packedBytes.toArray⟩ = .ok f ∧
      f.symbolSection? = some symbolSection.header ∧
      f.sections[symbolSection.header.link]? = some nameSection.header ∧
      f.ReadsAt symbolSection.header nameSection.header (f.entryOffset symbolSection.header) := by
  have hfile := isPacked_bigImage.liesIn.ofFile_eq
  have hsymbols : (bigImage.image ⟨bigImage.packedBytes.toArray⟩).symbolSection? =
      some symbolSection.header := bigImage.symbolSection?_image _
  obtain ⟨-, -, hread⟩ := Image.symbolTable_readsAt hfile
  obtain ⟨-, -, hread⟩ := hread _ hsymbols
  obtain ⟨-, hexact⟩ := hread _ rfl
  exact ⟨_, hfile, hsymbols, rfl, (hexact isPacked_bigImage.size_lt).2 (.inl (by decide))⟩

def wideEncoding : Encoding := ⟨.bits64, .little⟩

/-- A symbol table that begins eight bytes before the largest offset ends. -/
def highSymbols : WrittenHeader wideEncoding where
  header :=
    { name := ".symtab", nameOffset := 1, kind := 2, flags := 0, address := 0
      offset := 0xfffffffffffffff8, size := 48, link := 2, info := 0, entrySize := 24 }
  alignment := 0
  fits := by constructor <;> decide

def highNameContents : List UInt8 :=
  ["", ".symtab", ".strtab"].flatMap fun name => Utf8.encode name ++ [0]

def highNames : WrittenSection wideEncoding where
  header :=
    { name := ".strtab", nameOffset := 9, kind := 3, flags := 0, address := 0, offset := 64
      size := 17, link := 0, info := 0, entrySize := 0 }
  alignment := 0
  fits := by constructor <;> decide
  contents := highNameContents
  size_eq := rfl
  name_ne := by decide
  kind_ne := by decide

def highHeaders : List (WrittenHeader wideEncoding) :=
  [{ header := { nameOffset := 0, kind := 0, flags := 0, address := 0, offset := 0, size := 0
                 link := 0, info := 0, entrySize := 0 }
     alignment := 0
     fits := by constructor <;> decide },
    highSymbols, highNames.toWrittenHeader]

def highFileHeader : FileHeader :=
  { machine := 62, tableOffset := 81, entrySize := 64, count := 3, nameIndex := 2 }

def highBytes : List UInt8 :=
  wideEncoding.magic ++ List.replicate 10 0 ++ highFileHeader.bytes wideEncoding {} ++
    (highNameContents ++ highHeaders.flatMap (·.bytes))

theorem length_highBytes : highBytes.length = 273 := by
  simp only [highBytes, List.length_append, length_tableBytes]
  decide

theorem holdsHeaders_highBytes :
    HoldsHeaders ⟨highBytes.toArray⟩ highFileHeader highHeaders highNames := by
  have hall : (wideEncoding.window ⟨highBytes.toArray⟩).Holds 0 highBytes :=
    Encoding.holds_window wideEncoding highBytes
  obtain ⟨hhead, hrest⟩ := Window.holds_append.1 hall
  obtain ⟨hmagic, hheader⟩ := Window.holds_append.1 hhead
  obtain ⟨hnames, htable⟩ := Window.holds_append.1 hrest
  refine ⟨?_, ?_, ?_, rfl, ⟨_, List.length_replicate, hmagic⟩, ⟨{}, hheader⟩, htable, ?_, hnames,
    ?_⟩
  · have hsize : (⟨highBytes.toArray⟩ : ByteArray).size = 273 := length_highBytes
    rw [hsize]
    decide
  · constructor <;> decide
  · decide
  · exact ⟨_, _, 2, rfl, .inl ⟨rfl, by decide⟩, .inl ⟨rfl, by decide⟩, rfl⟩
  · refine List.forall_mem_cons.2 ⟨⟨by decide, by decide⟩, ?_⟩
    refine List.forall_mem_cons.2 ⟨⟨by decide, by decide⟩, List.forall_mem_singleton.2 ?_⟩
    exact ⟨by decide, by decide⟩

/-- An entry beyond the end of the file is no error. -/
theorem exists_symbolTable_highBytes :
    ∃ f, Image.ofFile ⟨highBytes.toArray⟩ = .ok f ∧
      f.symbolSection? = some highSymbols.header ∧ 1 < f.entryCount highSymbols.header ∧
      f.data.size < f.entryOffset highSymbols.header 1 ∧ ∃ t, f.symbolTable = .ok t := by
  obtain ⟨f, hf⟩ : ∃ f : Image, f = { wideEncoding with
      data := ⟨highBytes.toArray⟩, machine := highFileHeader.machine
      sections := (highHeaders.map (·.header)).toArray } := ⟨_, rfl⟩
  have hfile : Image.ofFile ⟨highBytes.toArray⟩ = .ok f := hf ▸ holdsHeaders_highBytes.ofFile_eq
  have hsize : f.data.size = 273 := by
    rw [hf]
    exact length_highBytes
  have hsymbols : f.symbolSection? = some highSymbols.header := by
    rw [Image.symbolSection?, Image.sectionNamed?, Array.findRev?_eq_find?_reverse, hf,
      List.reverse_toArray, List.find?_toArray]
    rfl
  have hstrings : f.sections[highSymbols.header.link]? = some highNames.header := by
    rw [hf]
    rfl
  have hcount : f.entryCount highSymbols.header = 2 := by
    rw [hf]
    decide
  have hoffset : f.entryOffset highSymbols.header 1 = 0x10000000000000010 := by
    rw [hf]
    decide
  refine ⟨f, hfile, hsymbols, by omega, by omega, ?_⟩
  refine (Image.readsAt_mod_word hsymbols hstrings).exists_ok_iff.2 fun i hpos hi => ?_
  obtain rfl : i = 1 := by omega
  rw [hoffset, hsize, hf]
  decide

end Elf

end StackSurvey
