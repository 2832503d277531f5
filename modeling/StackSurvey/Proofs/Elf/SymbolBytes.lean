import StackSurvey.Elf.Symbols
import StackSurvey.Proofs.Elf.HeaderBytes

namespace StackSurvey

namespace SymbolKind

def code : SymbolKind → Nat
  | noType => 0
  | object => 1
  | func => 2
  | .section => 3
  | file => 4
  | common => 5
  | tls => 6
  | other code => code

/-- Four bits hold the number of a kind, and it is that of no other kind. -/
structure IsCoded (kind : SymbolKind) : Prop where
  code_lt : kind.code < 16
  other_gt : ∀ code, kind = other code → 6 < code

theorem IsCoded.ofInfo_eq {kind : SymbolKind} {info : UInt8} (h : kind.IsCoded)
    (hinfo : info.toNat % 16 = kind.code) : ofInfo info = kind := by
  cases kind with
  | other code =>
    have hother := h.other_gt code rfl
    rw [ofInfo, hinfo]
    simp only [SymbolKind.code]
    split <;> first | omega | rfl
  | _ =>
    rw [ofInfo, hinfo]
    rfl

end SymbolKind

namespace SymbolBinding

def code : SymbolBinding → Nat
  | .local => 0
  | global => 1
  | weak => 2
  | other code => code

structure IsCoded (binding : SymbolBinding) : Prop where
  code_lt : binding.code < 16
  other_gt : ∀ code, binding = other code → 2 < code

theorem IsCoded.ofInfo_eq {binding : SymbolBinding} {info : UInt8} (h : binding.IsCoded)
    (hinfo : info.toNat / 16 = binding.code) : ofInfo info = binding := by
  cases binding with
  | other code =>
    have hother := h.other_gt code rfl
    rw [ofInfo, hinfo]
    simp only [SymbolBinding.code]
    split <;> first | omega | rfl
  | _ =>
    rw [ofInfo, hinfo]
    rfl

end SymbolBinding

namespace Elf

open Dwarf.Decoder

namespace SymbolEntry

structure Fits (e : Encoding) (s : SymbolEntry) : Prop where
  nameOffset_lt : s.nameOffset < 1 <<< (8 * 4)
  value_lt : s.value.toNat < 1 <<< (8 * e.fileClass.addressSize)
  size_lt : s.size.toNat < 1 <<< (8 * e.fileClass.addressSize)
  sectionIndex_lt : s.sectionIndex < 1 <<< (8 * 2)

def bytes (e : Encoding) (s : SymbolEntry) : List UInt8 :=
  match e.fileClass with
  | .bits32 =>
    e.order.encode 4 s.nameOffset ++ (e.word s.value.toNat ++ (e.word s.size.toNat ++
      ([s.info] ++ ([s.other] ++ e.order.encode 2 s.sectionIndex))))
  | .bits64 =>
    e.order.encode 4 s.nameOffset ++ ([s.info] ++ ([s.other] ++
      (e.order.encode 2 s.sectionIndex ++ (e.word s.value.toNat ++ e.word s.size.toNat))))

theorem length_bytes (e : Encoding) (s : SymbolEntry) :
    (s.bytes e).length = e.fileClass.symbolSize.toNat := by
  obtain ⟨fileClass, order⟩ := e
  cases fileClass
  all_goals
    simp only [bytes, Encoding.word, List.length_append, ByteOrder.length_encode,
      List.length_singleton]
    rfl

theorem Fits.reads_decoder {e : Encoding} {data : ByteArray} {s : SymbolEntry} (h : s.Fits e) :
    (SymbolEntry.decoder e.fileClass).Reads (e.region data) (s.bytes e) s := by
  have hname := reads_encode (r := e.region data) h.nameOffset_lt
  have hvalue := Encoding.reads_word data h.value_lt
  have hsize := Encoding.reads_word data h.size_lt
  have hindex := reads_encode (r := e.region data) h.sectionIndex_lt
  have hinfo := reads_byte (r := e.region data) s.info
  have hother := reads_byte (r := e.region data) s.other
  obtain ⟨fileClass, order⟩ := e
  cases fileClass with
  | bits32 =>
    have hlast := hindex.bind_nil (f := fun sectionIndex => pure { s with sectionIndex })
      (reads_pure s)
    exact hname.bind (hvalue.bind (hsize.bind (hinfo.bind (hother.bind hlast))))
  | bits64 =>
    have hlast := hsize.bind_nil (f := fun size => pure { s with size }) (reads_pure s)
    exact hname.bind (hinfo.bind (hother.bind (hindex.bind (hvalue.bind hlast))))

end SymbolEntry

/-- A symbol as a symbol table writes it; its name stands in a string table. -/
structure WrittenSymbol (e : Encoding) where
  name : String
  nameOffset : Nat
  value : UInt64
  size : UInt64
  kind : SymbolKind
  binding : SymbolBinding
  visibility : Nat
  /-- The bits that share a byte with the visibility. -/
  otherBits : Nat
  sectionIndex : Nat
  isCoded_kind : kind.IsCoded
  isCoded_binding : binding.IsCoded
  visibility_lt : visibility < 4
  otherBits_lt : otherBits < 64
  nameOffset_lt : nameOffset < 1 <<< (8 * 4)
  value_lt : value.toNat < 1 <<< (8 * e.fileClass.addressSize)
  size_lt : size.toNat < 1 <<< (8 * e.fileClass.addressSize)
  sectionIndex_lt : sectionIndex < 1 <<< (8 * 2)

namespace WrittenSymbol

variable {e : Encoding}

def entry (s : WrittenSymbol e) : SymbolEntry where
  nameOffset := s.nameOffset
  value := s.value
  size := s.size
  info := .ofNat (s.binding.code * 16 + s.kind.code)
  other := .ofNat (s.otherBits * 4 + s.visibility)
  sectionIndex := s.sectionIndex

def bytes (s : WrittenSymbol e) : List UInt8 := s.entry.bytes e

theorem fits_entry (s : WrittenSymbol e) : s.entry.Fits e where
  nameOffset_lt := s.nameOffset_lt
  value_lt := s.value_lt
  size_lt := s.size_lt
  sectionIndex_lt := s.sectionIndex_lt

theorem toNat_info (s : WrittenSymbol e) :
    s.entry.info.toNat = s.binding.code * 16 + s.kind.code := by
  have hkind := s.isCoded_kind.code_lt
  have hbinding := s.isCoded_binding.code_lt
  exact UInt8.toNat_ofNat_of_lt' (show _ < 256 by omega)

theorem kind_ofInfo (s : WrittenSymbol e) : SymbolKind.ofInfo s.entry.info = s.kind := by
  have hlt := s.isCoded_kind.code_lt
  apply s.isCoded_kind.ofInfo_eq
  rw [s.toNat_info]
  omega

theorem binding_ofInfo (s : WrittenSymbol e) : SymbolBinding.ofInfo s.entry.info = s.binding := by
  have hlt := s.isCoded_kind.code_lt
  apply s.isCoded_binding.ofInfo_eq
  rw [s.toNat_info]
  omega

theorem visibility_other (s : WrittenSymbol e) : s.entry.other.toNat % 4 = s.visibility := by
  have hvisibility := s.visibility_lt
  have hbits := s.otherBits_lt
  have hother : s.entry.other.toNat = s.otherBits * 4 + s.visibility :=
    UInt8.toNat_ofNat_of_lt' (show _ < 256 by omega)
  rw [hother]
  omega

end WrittenSymbol

end Elf

end StackSurvey
