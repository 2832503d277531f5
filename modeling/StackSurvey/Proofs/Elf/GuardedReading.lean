import StackSurvey.Elf.Image
import StackSurvey.Proofs.Dwarf.UnitExtent
import StackSurvey.Proofs.Elf.HeaderBytes

namespace StackSurvey.Elf

open Dwarf (Decoder Window isAddressSize lt_word_of_width_le)

/-- What a machine stops at. -/
inductive Trap where
  | outside (start stop size : Nat)
  | overflow (n : Nat)
deriving DecidableEq, Inhabited

abbrev Guarded : Type → Type := Except Trap

namespace Guarded

/-- A sum or a product, which has to fit a word. -/
def word (n : Nat) : Guarded Nat := if n < 1 <<< 64 then .ok n else .error (.overflow n)

/-- The bytes from `start` up to `stop`, all of which have to be there. -/
def slice (data : ByteArray) (start stop : Nat) : Guarded (List UInt8) :=
  if start ≤ stop ∧ stop ≤ data.size then .ok (data.extract start stop).data.toList
  else .error (.outside start stop data.size)

def byteAt (data : ByteArray) (pos : Nat) : Guarded UInt8 :=
  if h : pos < data.size then .ok data[pos] else .error (.outside pos (pos + 1) data.size)

/-- A decoder on the machine. -/
abbrev Decoding (α : Type) : Type := ReaderT Window (StateT Nat (ExceptT Dwarf.Fault Guarded)) α

def bytes (n : Nat) : Decoding (List UInt8) := fun w pos => do
  if w.limit < pos ∨ w.remaining pos < n then
    throw (.truncated pos n (w.remaining pos))
  let next ← word (pos + n)
  let content ← slice w.data pos next
  return (content, next)

def unsigned (width : Nat) : Decoding Nat := do
  let order := (← read).region.order
  order.decode <$> bytes width

def address : Decoding UInt64 := do
  let size := (← read).region.addressSize
  if isAddressSize size then
    let n ← unsigned size
    UInt64.ofNat <$> liftM (word n)
  else
    throw (.unsupportedAddressSize size)

variable {α β : Type}

/-- What a decoder decodes and where it stops, or its fault. -/
def outcome : EStateM.Result Dwarf.Fault Nat α → Except Dwarf.Fault (α × Nat)
  | .ok a next => .ok (a, next)
  | .error fault _ => .error fault

/-- On the machine, which does not stop, a decoding does what a decoder does. -/
def Follows (g : Decoding α) (d : Decoder α) : Prop :=
  ∀ ⦃w : Window⦄ ⦃pos : Nat⦄, w.data.size < 1 <<< 64 →
    ((g.run w).run pos).run = .ok (outcome (d w pos))

theorem follows_pure (a : α) : Follows (pure a) (pure a) := fun _ _ _ => rfl

theorem Follows.bind {g : Decoding α} {d : Decoder α} {f : α → Decoding β} {k : α → Decoder β}
    (h : Follows g d) (hk : ∀ {w pos a next}, d w pos = .ok a next → Follows (f a) (k a)) :
    Follows (g >>= f) (d >>= k) := by
  intro w pos hw
  rw [ReaderT.run_bind, StateT.run_bind, ExceptT.run_bind, h hw]
  cases hd : d w pos with
  | ok a next =>
    rw [Decoder.bind_of_eq_ok k hd]
    exact hk hd hw
  | error fault next =>
    rw [Decoder.bind_of_eq_error k hd]
    rfl

theorem Follows.map {g : Decoding α} {d : Decoder α} (h : Follows g d) (f : α → β) :
    Follows (f <$> g) (f <$> d) := by
  rw [map_eq_pure_bind]
  exact h.bind fun _ => follows_pure _

theorem word_of_lt {n : Nat} (h : n < 1 <<< 64) : word n = .ok n := if_pos h

theorem slice_of_le (data : ByteArray) {start stop : Nat} (h : start ≤ stop)
    (hstop : stop ≤ data.size) :
    slice data start stop = .ok (data.extract start stop).data.toList := if_pos ⟨h, hstop⟩

example : slice ⟨#[1]⟩ 0 2 = .error (.outside 0 2 1) := rfl

theorem follows_bytes (n : Nat) : Follows (bytes n) (Decoder.bytes n) := by
  intro w pos hw
  have hlimit : w.limit ≤ w.data.size := Nat.min_le_right ..
  by_cases h : pos + n ≤ w.limit
  · have hinside : ¬ (w.limit < pos ∨ w.remaining pos < n) := by
      rw [Window.remaining]
      omega
    have hword := word_of_lt (n := pos + n) (by omega)
    have hslice := slice_of_le w.data (Nat.le_add_right pos n) (by omega)
    rw [Decoder.bytes, if_pos h]
    change (bytes n w pos).run = _
    rw [bytes, if_neg hinside, hword]
    change (liftM (slice w.data pos (pos + n)) >>= fun content =>
      (pure (content, pos + n) : ExceptT Dwarf.Fault Guarded _)).run = _
    rw [hslice]
    rfl
  · have houtside : w.limit < pos ∨ w.remaining pos < n := by
      rw [Window.remaining]
      omega
    rw [Decoder.bytes, if_neg h]
    change (bytes n w pos).run = _
    rw [bytes, if_pos houtside]
    rfl

theorem follows_unsigned (width : Nat) : Follows (unsigned width) (Decoder.unsigned width) := by
  intro w pos hw
  exact (follows_bytes width).map w.region.order.decode hw

theorem follows_address : Follows address Decoder.address := by
  intro w pos hw
  by_cases hsize : isAddressSize w.region.addressSize = true
  · obtain ⟨hpos, hle⟩ := Decoder.bounds_of_isAddressSize hsize
    have hdecoder : Decoder.address w =
        (Decoder.unsigned w.region.addressSize >>= fun n => pure (UInt64.ofNat n)) w := by
      change (if _ then Decoder.sized _ else _) w = _
      rw [if_pos hsize, Decoder.sized, if_neg (by omega), map_eq_pure_bind]
    have hguarded : address.run w =
        (unsigned w.region.addressSize >>= fun n => UInt64.ofNat <$> liftM (word n)).run w := by
      change (if _ then _ else _ : Decoding UInt64).run w = _
      rw [if_pos hsize]
    rw [hdecoder, hguarded]
    refine (follows_unsigned _).bind (fun hn => ?_) hw
    have hword := word_of_lt (lt_word_of_width_le (Decoder.holds_encode_of_unsigned hn).2.1 hle)
    intro w pos _
    rw [hword]
    rfl
  · have hdecoder : Decoder.address w = fun pos =>
        .error (.unsupportedAddressSize w.region.addressSize) pos := by
      change (if _ then Decoder.sized _ else _) w = _
      rw [if_neg hsize]
      rfl
    have hguarded : address.run w = throw (.unsupportedAddressSize w.region.addressSize) := by
      change (if _ then _ else _ : Decoding UInt64).run w = _
      rw [if_neg hsize]
      rfl
    rw [hdecoder, hguarded]
    rfl

end Guarded

section Headers

variable {m : Type → Type} [Monad m] (unsigned : Nat → m Nat) (address : m UInt64)

/-- A file header, by how numbers are decoded. -/
def FileHeader.readBy : m FileHeader := do
  let _kind ← unsigned 2
  let machine ← unsigned 2
  let _version ← unsigned 4
  let _entryPoint ← address
  let _programOffset ← address
  let tableOffset ← address
  let _flags ← unsigned 4
  let _headerSize ← unsigned 2
  let _programEntrySize ← unsigned 2
  let _programCount ← unsigned 2
  let entrySize ← unsigned 2
  let count ← unsigned 2
  let nameIndex ← unsigned 2
  return { machine, tableOffset, entrySize, count, nameIndex }

/-- A section header without its name, by how numbers are decoded. -/
def SectionHeader.readBy : m SectionHeader := do
  let nameOffset ← unsigned 4
  let kind ← unsigned 4
  let flags ← address
  let sectionAddress ← address
  let offset ← address
  let size ← address
  let link ← unsigned 4
  let info ← unsigned 4
  let _alignment ← address
  let entrySize ← address
  return { nameOffset, kind, flags, address := sectionAddress, offset, size, link, info, entrySize }

end Headers

theorem FileHeader.decoder_eq_readBy :
    FileHeader.decoder = FileHeader.readBy Decoder.unsigned Decoder.address := rfl

theorem SectionHeader.decoder_eq_readBy :
    SectionHeader.decoder = SectionHeader.readBy Decoder.unsigned Decoder.address := rfl

namespace Guarded

theorem follows_fileHeader : Follows (FileHeader.readBy unsigned address) FileHeader.decoder := by
  rw [FileHeader.decoder_eq_readBy]
  refine (follows_unsigned 2).bind fun _ => (follows_unsigned 2).bind fun _ =>
    (follows_unsigned 4).bind fun _ => follows_address.bind fun _ => follows_address.bind fun _ =>
    follows_address.bind fun _ => (follows_unsigned 4).bind fun _ => ?_
  exact (follows_unsigned 2).bind fun _ => (follows_unsigned 2).bind fun _ =>
    (follows_unsigned 2).bind fun _ => (follows_unsigned 2).bind fun _ =>
    (follows_unsigned 2).bind fun _ => (follows_unsigned 2).bind fun _ => follows_pure _

theorem follows_sectionHeader :
    Follows (SectionHeader.readBy unsigned address) SectionHeader.decoder := by
  rw [SectionHeader.decoder_eq_readBy]
  refine (follows_unsigned 4).bind fun _ => (follows_unsigned 4).bind fun _ =>
    follows_address.bind fun _ => follows_address.bind fun _ => follows_address.bind fun _ =>
    follows_address.bind fun _ => ?_
  exact (follows_unsigned 4).bind fun _ => (follows_unsigned 4).bind fun _ =>
    follows_address.bind fun _ => follows_address.bind fun _ => follows_pure _

/-- Reading a file on the machine. -/
abbrev Reading (α : Type) : Type := ExceptT Fault Guarded α

/-- The class that a code stands for. -/
def classOf (code : UInt8) : Except Fault FileClass :=
  if code = 1 then .ok .bits32
  else if code = 2 then .ok .bits64
  else .error (.unsupportedClass code)

def orderOf (code : UInt8) : Except Fault ByteOrder :=
  if code = 1 then .ok .little
  else if code = 2 then .ok .big
  else .error (.unsupportedEncoding code)

theorem code_of_classOf {code : UInt8} {c : FileClass} (h : classOf code = .ok c) :
    code = c.code := by
  rw [classOf] at h
  split at h
  · cases h
    assumption
  · split at h
    · cases h
      assumption
    · cases h

theorem code_of_orderOf {code : UInt8} {order : ByteOrder} (h : orderOf code = .ok order) :
    code = order.code := by
  rw [orderOf] at h
  split at h
  · cases h
    assumption
  · split at h
    · cases h
      assumption
    · cases h

def encoding (data : ByteArray) : Reading Encoding := do
  if data.size < 16 then
    throw .notElf
  let start ← slice data 0 4
  if start ≠ [0x7f, 0x45, 0x4c, 0x46] then
    throw .notElf
  let fileClass ← ofExcept (classOf (← byteAt data 4))
  let order ← ofExcept (orderOf (← byteAt data 5))
  return { fileClass, order }

def decodeAt (e : Encoding) (data : ByteArray) (offset : UInt64) (g : Decoding α) : Reading α :=
  if data.size < offset.toNat then
    throw (.offsetBeyondEnd offset)
  else
    ExceptT.mk do
      match ← ((g.run ⟨data, e.region data⟩).run offset.toNat).run with
      | .ok (a, _) => return .ok a
      | .error fault => return .error (.undecodable fault)

/-- Decodes `n` section headers, the first of which has an index. -/
def sectionHeaders (e : Encoding) (data : ByteArray) (header : FileHeader) :
    Nat → Nat → Array SectionHeader → Reading (Array SectionHeader)
  | 0, _, headers => return headers
  | n + 1, i, headers => do
    let distance ← word (i * header.entrySize)
    let offset ← word (header.tableOffset.toNat + distance)
    let next ← decodeAt e data (.ofNat offset) (SectionHeader.readBy unsigned address)
    sectionHeaders e data header n (i + 1) (headers.push next)

/-- The bytes of a section. -/
def contents? (h : SectionHeader) (data : ByteArray) : Guarded (Option ByteArray) := do
  let stop := h.offset.toNat + h.size.toNat
  if h.kind = 8 ∨ data.size < stop then
    return none
  return some ⟨(← slice data h.offset.toNat stop).toArray⟩

def textAt? (table : ByteArray) (offset : Nat) : Guarded (Option String) := do
  match (Window.mk table (.whole table .little)).find? (· == 0) offset with
  | some stop => return some (Utf8.lossy (← slice table offset stop))
  | none => return none

/-- The text at an offset of a table, if there is one. -/
def nameAt (table : Option ByteArray) (offset : Nat) : Guarded String :=
  match table with
  | some table => return (← textAt? table offset).getD ""
  | none => return ""

def nameSections (data : ByteArray) (index : Nat) (headers : Array SectionHeader) :
    Guarded (Array SectionHeader) := do
  match headers[index]? with
  | some names =>
    let table ← contents? names data
    headers.mapM fun h => return { h with name := ← nameAt table h.nameOffset }
  | none => return headers

def sectionTable (e : Encoding) (data : ByteArray) (header : FileHeader) :
    Reading (Array SectionHeader) := do
  if header.tableOffset = 0 then
    return #[]
  if header.entrySize ≠ e.fileClass.sectionHeaderSize then
    throw (.headerSize header.entrySize)
  let first ← decodeAt e data header.tableOffset (SectionHeader.readBy unsigned address)
  let count := if header.count = 0 then first.size.toNat else header.count
  -- Whether this fits a word is checked by the program itself.
  let stop := header.tableOffset.toNat + count * header.entrySize
  if 0x10000000000000000 ≤ stop then
    throw .tableSizeOverflow
  if data.size < stop then
    throw (.tableBeyondEnd count header.tableOffset)
  let nameIndex := if header.nameIndex = 0xffff then first.link else header.nameIndex
  let headers ← sectionHeaders e data header count 0 #[]
  liftM (nameSections data nameIndex headers)

def ofFile (data : ByteArray) : Reading Image := do
  let e ← encoding data
  let header ← decodeAt e data 16 (FileHeader.readBy unsigned address)
  return { e with
    data, machine := header.machine, sections := ← sectionTable e data header }

variable {e : Encoding} {data : ByteArray}

theorem liftM_bind_of_eq_ok {x : Guarded α} {a : α} (h : x = .ok a) (f : α → Reading β) :
    liftM x >>= f = f a := by
  rw [h]
  rfl

theorem run_ofExcept (y : Except Fault α) : (ofExcept y : Reading α).run = .ok y := by
  cases y <;> rfl

theorem run_bind_of_run {x : Reading α} {f : α → Reading β} {y : Except Fault α}
    {k : α → Except Fault β} (hx : x.run = .ok y) (hf : ∀ a, y = .ok a → (f a).run = .ok (k a)) :
    (x >>= f).run = .ok (y >>= k) := by
  rw [ExceptT.run_bind, hx]
  cases y with
  | ok a => exact hf a rfl
  | error fault => rfl

theorem ofFile_eq_bind (hsize : ¬ data.size < 16) (hclass : 4 < data.size)
    (horder : 5 < data.size)
    (hmagic : (data.extract 0 4).data = #[0x7f, 0x45, 0x4c, 0x46]) :
    Encoding.ofFile data = classOf data[4] >>= fun fileClass =>
      orderOf data[5] >>= fun order => .ok { fileClass, order } := by
  rw [Encoding.ofFile, dif_neg hsize, if_neg (not_not.2 hmagic)]
  generalize data[4] = c
  generalize data[5] = o
  have hother : (c = 1 → False) → (c = 2 → False) → classOf c = .error (.unsupportedClass c) :=
    fun hnarrow hwide => by rw [classOf, if_neg hnarrow, if_neg hwide]
  -- Whether the order is known is asked first, but a class that is not known is the fault.
  split
  · split
    · rfl
    · rfl
    · rw [hother ‹_› ‹_›]
      rfl
  · split
    · rfl
    · rfl
    · rw [hother ‹_› ‹_›]
      rfl
  · rename_i hlittle hbig
    rw [orderOf, if_neg hlittle, if_neg hbig]
    split
    · rfl
    · rfl
    · rw [hother ‹_› ‹_›]
      rfl

theorem run_encoding (data : ByteArray) : (encoding data).run = .ok (Encoding.ofFile data) := by
  by_cases hsize : data.size < 16
  · rw [encoding, if_pos hsize, Encoding.ofFile, dif_pos hsize]
    rfl
  · have hstart := slice_of_le data (Nat.zero_le 4) (by omega)
    have hclass : byteAt data 4 = .ok data[4] := dif_pos (by omega)
    have horder : byteAt data 5 = .ok data[5] := dif_pos (by omega)
    rw [encoding, if_neg hsize, liftM_bind_of_eq_ok hstart]
    by_cases hmagic : (data.extract 0 4).data = #[0x7f, 0x45, 0x4c, 0x46]
    · rw [if_neg (not_not.2 (congrArg Array.toList hmagic)), liftM_bind_of_eq_ok hclass,
        ofFile_eq_bind hsize (by omega) (by omega) hmagic]
      refine run_bind_of_run (run_ofExcept _) fun fileClass _ => ?_
      rw [liftM_bind_of_eq_ok horder]
      exact run_bind_of_run (run_ofExcept _) fun order _ => rfl
    · rw [if_pos fun h => hmagic (Array.toList_inj.1 h), Encoding.ofFile, dif_neg hsize,
        if_pos hmagic]
      rfl

theorem run_decodeAt {g : Decoding α} {d : Decoder α} (h : Follows g d)
    (hdata : data.size < 1 <<< 64) (offset : UInt64) :
    (decodeAt e data offset g).run = .ok (e.decodeAt data offset d) := by
  by_cases hoffset : data.size < offset.toNat
  · rw [decodeAt, if_pos hoffset, Encoding.decodeAt, if_pos hoffset]
    rfl
  · rw [decodeAt, if_neg hoffset, Encoding.decodeAt, if_neg hoffset, ExceptT.run_mk,
      h (w := ⟨data, e.region data⟩) hdata]
    cases d ⟨data, e.region data⟩ offset.toNat <;> rfl

/-- Each header lies in the table, which ends where the file does or before. -/
theorem run_sectionHeaders {header : FileHeader} {n i : Nat} {offset : UInt64}
    (hdata : data.size < 1 <<< 64) (hentry : header.entrySize = e.fileClass.sectionHeaderSize)
    (hoffset : offset.toNat = header.tableOffset.toNat + i * header.entrySize)
    (hle : header.tableOffset.toNat + (i + n) * header.entrySize ≤ data.size)
    (headers : Array SectionHeader) :
    (sectionHeaders e data header n i headers).run =
      .ok (Image.sectionHeaders e data n offset headers) := by
  induction n generalizing i offset headers with
  | zero => rfl
  | succ n ih =>
    have hsplit : (i + (n + 1)) * header.entrySize =
        (i + 1) * header.entrySize + n * header.entrySize := by
      rw [← Nat.add_mul, Nat.add_right_comm, Nat.add_assoc]
    have hstep : (i + 1) * header.entrySize = i * header.entrySize + header.entrySize :=
      Nat.succ_mul ..
    have hdistance := word_of_lt (n := i * header.entrySize) (by omega)
    have hword := word_of_lt (n := header.tableOffset.toNat + i * header.entrySize) (by omega)
    have hfits : offset.toNat + e.fileClass.sectionHeaderSize < 1 <<< 64 := by omega
    have hnext : (offset + UInt64.ofNat e.fileClass.sectionHeaderSize).toNat =
        header.tableOffset.toNat + (i + 1) * header.entrySize := by
      rw [FileClass.toNat_add_sectionHeaderSize _ hfits, hoffset, ← hentry, Nat.add_assoc, ← hstep]
    rw [sectionHeaders, Image.sectionHeaders, liftM_bind_of_eq_ok hdistance,
      liftM_bind_of_eq_ok hword, ← hoffset, UInt64.ofNat_toNat]
    refine run_bind_of_run (run_decodeAt follows_sectionHeader hdata offset) fun first _ => ?_
    refine ih hnext ?_ _
    rwa [Nat.add_mul, ← hsplit]

theorem contents?_eq (h : SectionHeader) (data : ByteArray) :
    contents? h data = .ok (h.contents? data) := by
  rw [contents?, SectionHeader.contents?]
  by_cases hnone : h.kind = 8 ∨ data.size < h.offset.toNat + h.size.toNat
  · rw [if_pos hnone, if_pos hnone]
    rfl
  · have hslice := slice_of_le data (Nat.le_add_right h.offset.toNat h.size.toNat)
      (Nat.le_of_not_lt (not_or.1 hnone).2)
    rw [if_neg hnone, if_neg hnone, hslice]
    rfl

theorem textAt?_eq (table : ByteArray) (offset : Nat) :
    textAt? table offset = .ok (Elf.textAt? table offset) := by
  rw [textAt?, Elf.textAt?, Decoder.text, map_eq_pure_bind]
  cases hfind : (Window.mk table (.whole table .little)).find? (· == 0) offset with
  | none =>
    have hterminated : Decoder.terminated ⟨table, .whole table .little⟩ offset =
        .error (.unterminatedString offset) offset := by
      rw [Decoder.terminated, hfind]
    rw [Decoder.bind_of_eq_error _ hterminated]
    rfl
  | some stop =>
    obtain ⟨hle, hlt⟩ := Window.find?_bounds hfind
    have hslice := slice_of_le table hle (Nat.le_of_lt (Window.lt_size_of_lt_limit hlt))
    have hterminated : Decoder.terminated ⟨table, .whole table .little⟩ offset =
        .ok (table.extract offset stop).data.toList (stop + 1) := by
      rw [Decoder.terminated, hfind]
      dsimp only
      rw [Window.slice, Nat.add_sub_cancel' hle]
    rw [Decoder.bind_of_eq_ok _ hterminated]
    dsimp only
    rw [hslice]
    rfl

theorem nameAt_eq (table : Option ByteArray) (offset : Nat) :
    nameAt table offset = .ok ((table.bind (Elf.textAt? · offset)).getD "") := by
  cases table with
  | none => rfl
  | some table =>
    rw [nameAt, textAt?_eq]
    rfl

theorem nameSections_eq (data : ByteArray) (index : Nat) (headers : Array SectionHeader) :
    nameSections data index headers = .ok (Image.nameSections data index headers) := by
  rw [nameSections, Image.nameSections]
  cases headers[index]? with
  | none => rfl
  | some names =>
    dsimp only
    rw [contents?_eq]
    simp only [nameAt_eq]
    exact Array.mapM_pure

/-- The table ends where the file does or before, or there is a fault. -/
theorem run_sectionTable (hdata : data.size < 1 <<< 64) (header : FileHeader) :
    (sectionTable e data header).run = .ok (Image.sectionTable e data header) := by
  by_cases hnone : header.tableOffset = 0
  · rw [sectionTable, Image.sectionTable, if_pos hnone, if_pos hnone]
    rfl
  by_cases hentry : header.entrySize = e.fileClass.sectionHeaderSize
  · rw [sectionTable, Image.sectionTable, if_neg hnone, if_neg hnone, if_neg (not_not.2 hentry),
      if_neg (not_not.2 hentry)]
    refine run_bind_of_run (run_decodeAt follows_sectionHeader hdata _) fun first _ => ?_
    dsimp only
    generalize (if header.count = 0 then first.size.toNat else header.count) = count
    by_cases hoverflow : 0x10000000000000000 ≤ header.tableOffset.toNat + count * header.entrySize
    · rw [if_pos hoverflow, if_pos hoverflow]
      rfl
    by_cases hstop : data.size < header.tableOffset.toNat + count * header.entrySize
    · rw [if_neg hoverflow, if_neg hoverflow, if_pos hstop, if_pos hstop]
      rfl
    · rw [if_neg hoverflow, if_neg hoverflow, if_neg hstop, if_neg hstop]
      have hstart : header.tableOffset.toNat =
          header.tableOffset.toNat + 0 * header.entrySize := by
        rw [Nat.zero_mul, Nat.add_zero]
      have hend : header.tableOffset.toNat + (0 + count) * header.entrySize ≤ data.size := by
        rwa [Nat.zero_add, ← Nat.not_lt]
      have hheaders := run_sectionHeaders hdata hentry hstart hend #[]
      refine run_bind_of_run hheaders fun headers _ => ?_
      rw [nameSections_eq]
      rfl
  · rw [sectionTable, Image.sectionTable, if_neg hnone, if_neg hnone, if_pos hentry, if_pos hentry]
    rfl

/-- Reading a file stops nowhere. -/
theorem run_ofFile (hdata : data.size < 1 <<< 64) :
    (ofFile data).run = .ok (Image.ofFile data) := by
  refine run_bind_of_run (run_encoding data) fun e _ => ?_
  refine run_bind_of_run (run_decodeAt follows_fileHeader hdata 16) fun header _ => ?_
  exact run_bind_of_run (run_sectionTable hdata header) fun sections _ => rfl

end Guarded

end StackSurvey.Elf
