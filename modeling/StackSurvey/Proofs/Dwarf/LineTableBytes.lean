import StackSurvey.Proofs.Dwarf.FileBytes

namespace StackSurvey.Dwarf

open Decoder

/-- The part of a header that describes the instructions. Any byte may stand for each number. -/
structure EncodedLineHeader where
  minInstructionLength : UInt8
  /-- From version 4 on. -/
  maxOperations : UInt8
  defaultIsStatement : UInt8
  lineBase : Int8
  lineRange : UInt8
  opcodeBase : UInt8
  operandCounts : List UInt8
  length_operandCounts : operandCounts.length = opcodeBase.toNat - 1

namespace EncodedLineHeader

variable (x : EncodedLineHeader)

def toHeader : LineHeader where
  minInstructionLength := x.minInstructionLength.toNat
  lineBase := x.lineBase.toInt
  lineRange := x.lineRange.toNat
  opcodeBase := x.opcodeBase.toNat
  operandCounts := x.operandCounts

def bytes (version : Nat) : List UInt8 :=
  x.minInstructionLength :: ((if 4 ≤ version then [x.maxOperations] else []) ++
    x.defaultIsStatement :: x.lineBase.toUInt8 :: x.lineRange :: x.opcodeBase :: x.operandCounts)

variable {x} in
theorem reads_decodeHeader (h : x.lineRange ≠ 0) (r : Region) (version : Nat) :
    (LineTable.decodeHeader version).Reads r (x.bytes version) x.toHeader := by
  have hrange : x.lineRange.toNat ≠ 0 := fun hzero => h (UInt8.toNat_inj.1 hzero)
  have hcounts :
      (Decoder.bytes (x.opcodeBase.toNat - 1)).Reads r x.operandCounts x.operandCounts := by
    rw [← x.length_operandCounts]
    exact reads_bytes x.operandCounts
  refine (reads_unsigned_one x.minInstructionLength).bind ?_
  by_cases hversion : 4 ≤ version
  case' pos =>
    rw [if_pos hversion, if_pos hversion]
    refine (reads_skip [x.maxOperations]).bind ?_
  case' neg => rw [if_neg hversion, if_neg hversion]
  all_goals
    refine (reads_skip [x.defaultIsStatement]).bind ?_
    refine (reads_signed_one x.lineBase).bind ?_
    refine (reads_unsigned_one x.lineRange).bind ?_
    rw [if_neg hrange]
    exact (reads_unsigned_one x.opcodeBase).bind hcounts.map

end EncodedLineHeader

/-- A line table as bytes. -/
structure EncodedLineTable where
  format : Format
  order : ByteOrder
  version : Nat
  /-- From version 5 on, as is the size of selectors. -/
  addressSize : UInt8
  selectorSize : UInt8
  header : EncodedLineHeader
  files : List UInt8
  /-- What lies between the files and the program. -/
  padding : List UInt8
  program : List UInt8
  version_bounds : 2 ≤ version ∧ version ≤ 5

namespace EncodedLineTable

variable (x : EncodedLineTable)

/-- The bytes of the header behind its length. -/
def headerBytes : List UInt8 := x.header.bytes x.version ++ (x.files ++ x.padding)

/-- The bytes from the length of the header on. -/
def body : List UInt8 :=
  x.order.encode x.format.offsetSize x.headerBytes.length ++ (x.headerBytes ++ x.program)

def sizedBody : List UInt8 :=
  if 5 ≤ x.version then x.addressSize :: x.selectorSize :: x.body else x.body

def content : List UInt8 := x.order.encode 2 x.version ++ x.sizedBody

def bytes : List UInt8 := x.format.encodeLength x.order x.content.length ++ x.content

/-- The region of the table when it begins at `start`. -/
def region (start addressSize : Nat) : Region where
  start := start
  stop := start + x.bytes.length
  format := x.format
  order := x.order
  addressSize := addressSize

/-- The region that the header is decoded in. Version 5 states the size of addresses itself. -/
def headerRegion (source : LineSource) : Region :=
  x.region source.offset.toNat (if 5 ≤ x.version then x.addressSize.toNat else source.addressSize)

/-- A unit names a table that lies in the section. -/
structure LiesIn (x : EncodedLineTable) (sections : DebugSections) (source : LineSource) :
    Prop where
  order_eq : source.order = x.order
  fits : x.format.Fits x.content.length
  holds : ∃ data, sections.line = some data ∧
    (Window.mk data (.whole data x.order)).Holds source.offset.toNat x.bytes

/-- The files of a table are decoded as these paths, and then its program ends in this state. -/
structure Runs (x : EncodedLineTable) (sections : DebugSections) (source : LineSource)
    (directories fileNames : Array String) (final : LineState) : Prop where
  lineRange_ne_zero : x.header.lineRange ≠ 0
  reads_fileDecoder : (LineTable.fileDecoder sections source x.version).Reads
    (x.headerRegion source) x.files (directories, fileNames)
  runProgram_eq : ∀ ⦃w pos⦄, w.region.order = x.order → w.EndsWith pos x.program →
    LineState.runProgram x.header.toHeader
      (LineTable.legacyPath (source.compDir.getD "") directories) { fileNames } w pos =
      .ok final w.limit

theorem length_headerBytes_le : x.headerBytes.length ≤ x.content.length := by
  have hle : x.headerBytes.length ≤ x.body.length := by
    simp only [body, List.length_append]
    omega
  rw [content, List.length_append, sizedBody]
  split
  · simp only [List.length_cons]
    omega
  · omega

variable {x} {sections : DebugSections} {source : LineSource}
  {directories fileNames : Array String} {final : LineState}

theorem decodeFromHeader_of_endsWith {w : Window} {pos : Nat}
    (hregion : w.region = x.headerRegion source)
    (hruns : x.Runs sections source directories fileNames final)
    (hfits : x.format.Fits x.headerBytes.length) (h : w.EndsWith pos x.body) :
    LineTable.decodeFromHeader sections source x.version w pos =
      .ok { version := x.version, includeDirectories := directories, fileNames := final.fileNames,
            rows := final.rows } w.limit := by
  have hformat : w.region.format = x.format := hregion ▸ rfl
  have horder : w.region.order = x.order := hregion ▸ rfl
  obtain ⟨hlength, hrest⟩ := h.append
  obtain ⟨hheader, hprogram⟩ := hrest.append
  obtain ⟨hfields, hlists⟩ := Window.holds_append.1 hheader
  have hoffset := reads_offset (r := w.region) (hformat ▸ hfits.lt)
  rw [hformat, horder] at hoffset
  have hfields := EncodedLineHeader.reads_decodeHeader hruns.lineRange_ne_zero w.region x.version
    rfl hfields
  have hfiles := hruns.reads_fileDecoder hregion (Window.holds_append.1 hlists).1
  have hrun := hruns.runProgram_eq horder hprogram
  rw [LineTable.decodeFromHeader, bind_of_eq_ok _ (hoffset rfl hlength), hfits.toNat_ofNat,
    bind_of_eq_ok _ (ensure_of_le hheader.le_limit), bind_of_eq_ok _ (position_eq w _),
    bind_of_eq_ok _ hfields]
  rw [LineTable.fileDecoder] at hfiles
  by_cases hversion : 5 ≤ x.version
  case' pos => rw [if_pos hversion] at hfiles ⊢
  case' neg => rw [if_neg hversion] at hfiles ⊢
  -- Wherever the files end, the program begins where the length of the header says.
  all_goals
    rw [bind_of_eq_ok _ hfiles]
    exact bind_of_eq_ok _ hrun

theorem decode_of_endsWith {w : Window}
    (hregion : w.region = x.region source.offset.toNat source.addressSize)
    (hruns : x.Runs sections source directories fileNames final)
    (hfits : x.format.Fits x.content.length) (h : w.EndsWith source.offset.toNat x.bytes) :
    LineTable.decode sections source w source.offset.toNat =
      .ok { version := x.version, includeDirectories := directories, fileNames := final.fileNames,
            rows := final.rows } w.limit := by
  have hversion := x.version_bounds
  have hformat : w.region.format = x.format := hregion ▸ rfl
  have horder : w.region.order = x.order := hregion ▸ rfl
  obtain ⟨hlength, hcontent⟩ := h.append
  obtain ⟨hnumber, hrest⟩ := hcontent.append
  have hskip := reads_skipLength (r := w.region) x.order x.content.length
  have hencode := reads_encode (r := w.region) (show x.version < 1 <<< (8 * 2) by omega)
  rw [hformat] at hskip
  rw [horder] at hencode
  rw [LineTable.decode, bind_of_eq_ok _ (hskip rfl hlength),
    bind_of_eq_ok _ (hencode rfl hnumber)]
  dsimp only
  rw [if_neg (by omega)]
  have hheader := hfits.mono x.length_headerBytes_le
  by_cases hsized : 5 ≤ x.version
  · rw [sizedBody, if_pos hsized] at hrest
    rw [if_pos hsized]
    obtain ⟨haddressSize, hrest⟩ := hrest.cons
    obtain ⟨hselectorSize, hbody⟩ := hrest.cons
    have haddress : unsigned 1 w _ = .ok _ (_ + 1) := reads_unsigned_one _ rfl haddressSize
    have hselector : skip 1 w _ = .ok () (_ + 1) := reads_skip [x.selectorSize] rfl hselectorSize
    rw [bind_of_eq_ok _ haddress, bind_of_eq_ok _ hselector]
    -- From here on the size of addresses is the one that the table states.
    let sized : Window := { w with region.addressSize := x.addressSize.toNat }
    have hsame : sized.region = x.headerRegion source := by
      rw [headerRegion, if_pos hsized]
      exact congrArg (fun region => { region with addressSize := x.addressSize.toNat }) hregion
    exact decodeFromHeader_of_endsWith (w := sized) hsame hruns hheader
      ⟨⟨hbody.holds.le_limit, hbody.holds.slice_eq⟩, hbody.limit_eq⟩
  · rw [sizedBody, if_neg hsized] at hrest
    have hsame : w.region = x.headerRegion source := by rw [headerRegion, if_neg hsized, hregion]
    rw [if_neg hsized]
    exact decodeFromHeader_of_endsWith hsame hruns hheader hrest

/-- A table that lies where a unit says is loaded with the paths that its files are decoded as, and
what its program adds. -/
theorem LiesIn.load_of_runs (h : x.LiesIn sections source)
    (hruns : x.Runs sections source directories fileNames final) :
    LineTable.load sections source =
      .ok { version := x.version, includeDirectories := directories, fileNames := final.fileNames,
            rows := final.rows } := by
  obtain ⟨horder, hfits, data, hdata, hholds⟩ := h
  have hne : x.bytes ≠ [] := by
    refine List.ne_nil_of_length_pos ?_
    rw [bytes, List.length_append, Format.length_encodeLength]
    exact Nat.add_pos_left x.format.lengthSize_pos _
  let w : Window := ⟨data, x.region source.offset.toNat source.addressSize⟩
  have hends : w.EndsWith source.offset.toNat x.bytes := by
    have hlimit : w.limit = source.offset.toNat + x.bytes.length :=
      Nat.min_eq_left (Nat.le_trans hholds.le_limit (Nat.min_le_right ..))
    exact ⟨⟨Nat.le_of_eq hlimit.symm, hholds.slice_eq⟩, hlimit⟩
  have hdecode := decode_of_endsWith rfl hruns hfits hends
  have hunit : withAddressSize source.addressSize unit ⟨data, .whole data x.order⟩
      source.offset.toNat = .ok (x.region source.offset.toNat source.addressSize) _ :=
    unit_of_holds hfits rfl ⟨hholds.le_limit, hholds.slice_eq⟩
  rw [LineTable.load, horder]
  exact DebugSections.decodeAt_of_holds hdata hne hholds ((bind_of_eq_ok _ hunit).trans hdecode)

end EncodedLineTable

end StackSurvey.Dwarf
