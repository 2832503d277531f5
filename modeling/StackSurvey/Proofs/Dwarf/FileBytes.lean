import StackSurvey.Dwarf.LineTable
import StackSurvey.Proofs.Dwarf.LineBytes
import StackSurvey.Proofs.Dwarf.ValueBytes

namespace StackSurvey

namespace Utf8

/-- A pending character comes to something, be it a replacement. -/
theorem chars_pending_ne_nil (p : Pending) (bytes : List UInt8) : chars (some p) bytes ≠ [] := by
  induction bytes generalizing p with
  | nil => exact List.cons_ne_nil _ _
  | cons b bytes ih =>
    rw [chars]
    split
    · dsimp only
      split
      · exact List.cons_ne_nil _ _
      · exact ih _
    · exact List.cons_ne_nil _ _

theorem lossy_ne_empty {bytes : List UInt8} (h : bytes ≠ []) : (lossy bytes).isEmpty = false := by
  have hchars : chars none bytes ≠ [] := by
    cases bytes with
    | nil => contradiction
    | cons b bytes =>
      rw [chars]
      split
      · exact List.cons_ne_nil _ _
      · exact chars_pending_ne_nil _ bytes
  rw [lossy, String.isEmpty_eq_false_iff]
  simpa using hchars

end Utf8

namespace Dwarf

open Decoder StackSurvey.Path

variable {sections : DebugSections} {r : Region}

/-- A name as the lists of versions 2 to 4 write it. An empty one would end its list. -/
structure WrittenName where
  text : List UInt8
  ne_nil : text ≠ []
  zero_notMem : 0 ∉ text

def WrittenName.bytes (x : WrittenName) : List UInt8 := x.text ++ [0]

def WrittenName.name (x : WrittenName) : String := Utf8.lossy x.text

theorem WrittenName.reads_decodeDirectory (x : WrittenName) (compDir : String) :
    (LineTable.decodeDirectory compDir).Reads r x.bytes (some (joinSource compDir x.name)) := by
  refine (reads_text x.zero_notMem).bind_nil ?_
  rw [Utf8.lossy_ne_empty x.ne_nil]
  exact reads_pure _

/-- A file as the list of versions 2 to 4 writes it. -/
structure WrittenFile extends WrittenName where
  directory : List UInt8
  time : List UInt8
  size : List UInt8
  isGroup_directory : Leb128.IsGroup directory
  isGroup_time : Leb128.IsGroup time
  isGroup_size : Leb128.IsGroup size

def WrittenFile.bytes (x : WrittenFile) : List UInt8 :=
  x.toWrittenName.bytes ++ (x.directory ++ (x.time ++ x.size))

def WrittenFile.record (x : WrittenFile) : FileRecord :=
  { name := x.name, directory := Leb128.unsigned x.directory }

theorem WrittenFile.reads_decodeFile (x : WrittenFile) (path : FileRecord → String) :
    (LineTable.decodeFile path).Reads r x.bytes (some (path x.record)) := by
  refine (reads_text x.zero_notMem).bind ?_
  rw [Utf8.lossy_ne_empty x.ne_nil]
  exact (FileRecord.reads_decodeAfterName _ x.isGroup_directory x.isGroup_time x.isGroup_size).map
    (f := fun file => some (path file))

theorem LineTable.reads_decodeDirectory_end (compDir : String) :
    (decodeDirectory compDir).Reads r [0] none :=
  (reads_text (List.not_mem_nil)).bind_nil (reads_pure none)

theorem LineTable.reads_decodeFile_end (path : FileRecord → String) :
    (decodeFile path).Reads r [0] none :=
  (reads_text (List.not_mem_nil)).bind_nil (reads_pure none)

/-- The directories and files that versions 2 to 4 write. -/
structure WrittenLists where
  directories : List WrittenName
  files : List WrittenFile

namespace WrittenLists

variable (x : WrittenLists) (compDir compName : String)

def bytes : List UInt8 :=
  x.directories.flatMap (·.bytes) ++ [0] ++ (x.files.flatMap (·.bytes) ++ [0])

def directoryPaths : Array String :=
  (x.directories.map fun directory => joinSource compDir directory.name).toArray

/-- The paths of the files, after that of the primary file of the unit. -/
def filePaths : Array String :=
  #[joinSource compDir compName] ++
    (x.files.map fun file =>
      LineTable.legacyPath compDir (x.directoryPaths compDir) file.record).toArray

theorem reads_decodeLegacyFiles :
    (LineTable.decodeLegacyFiles compDir compName).Reads r x.bytes
      (x.directoryPaths compDir, x.filePaths compDir compName) := by
  have hdirectories := reads_manyUntil (LineTable.advances_decodeDirectory compDir)
    (fun name (_ : name ∈ x.directories) => name.reads_decodeDirectory (r := r) compDir)
    (LineTable.reads_decodeDirectory_end compDir)
  have hfiles (path : FileRecord → String) := reads_manyUntil (LineTable.advances_decodeFile path)
    (fun file (_ : file ∈ x.files) => file.reads_decodeFile (r := r) path)
    (LineTable.reads_decodeFile_end path)
  exact hdirectories.bind (hfiles _).map

end WrittenLists

/-- What a field of an entry of version 5 says. -/
inductive PathField where
  | path (text : List UInt8)
  | directory (index : UInt64)
  | other

/-- The bytes of what a field says, for its content and its form. -/
inductive PathField.Writes (sections : DebugSections) (r : Region) :
    UInt64 × Form → PathField → List UInt8 → Prop
  | text {text : List UInt8} (h : 0 ∉ text) :
      Writes sections r (1, .string) (path text) (text ++ [0])
  | sectionText {form : Form} {source : DebugSection} {offset : UInt64} {text : List UInt8}
      (hform : form.textSection? = some source)
      (htext : sections.HasText source r.order offset.toNat text)
      (hfits : offset.toNat < 1 <<< (8 * r.format.offsetSize)) :
      Writes sections r (1, form) (path text) (r.order.encode r.format.offsetSize offset.toNat)
  | index {form : Form} {width : Nat} {n : UInt64} (hform : form.dataWidth? = some width)
      (hfits : n.toNat < 1 <<< (8 * width)) :
      Writes sections r (2, form) (directory n) (r.order.encode width n.toNat)
  | group {group : List UInt8} (h : Leb128.IsGroup group) :
      Writes sections r (2, .udata) (directory (Leb128.unsigned group)) group
  | other {content : UInt64} {form : Form} {bytes : List UInt8} (hpath : content ≠ 1)
      (hdirectory : content ≠ 2) (h : form.Encodes r 5 bytes) :
      Writes sections r (content, form) other bytes

/-- Sets what a field says of an entry. -/
def PathRecord.set (record : PathRecord) : PathField → PathRecord
  | .path text => { record with path := Utf8.lossy text }
  | .directory index => { record with directory := index }
  | .other => record

namespace PathRecord

theorem decodeIndex_of_dataWidth? {form : Form} {width : Nat}
    (h : form.dataWidth? = some width) : decodeIndex form = sized width := by
  cases form <;> cases h <;> rfl

theorem reads_decodePath_of_textSection? {form : Form} {source : DebugSection} {offset : UInt64}
    {text : List UInt8} (hform : form.textSection? = some source)
    (htext : sections.HasText source r.order offset.toNat text)
    (hfits : offset.toNat < 1 <<< (8 * r.format.offsetSize)) :
    (decodePath sections form).Reads r (r.order.encode r.format.offsetSize offset.toNat)
      (Utf8.lossy text) := by
  have hoffset := reads_offset (r := r) hfits
  rw [UInt64.ofNat_toNat] at hoffset
  have htext : (ofExcept (sections.textAt source offset r.order) : Decoder String).Reads r []
      (Utf8.lossy text) := by
    rw [htext.textAt_eq]
    exact reads_pure _
  cases form <;> cases hform
  · exact reads_region.bind (hoffset.bind_nil htext)
  · exact reads_region.bind (hoffset.bind_nil htext)

end PathRecord

theorem PathField.Writes.reads_decodeField {field : UInt64 × Form} {value : PathField}
    {bytes : List UInt8} (h : value.Writes sections r field bytes) (record : PathRecord) :
    (record.decodeField sections field).Reads r bytes (record.set value) := by
  cases h with
  | @text text h =>
    have hpath : (PathRecord.decodePath sections .string).Reads r (text ++ [0]) (Utf8.lossy text) :=
      reads_region.bind (reads_text h)
    exact hpath.map
  | sectionText hform htext hfits =>
    exact (PathRecord.reads_decodePath_of_textSection? hform htext hfits).map
  | index hform hfits =>
    obtain ⟨_, hpos, hle⟩ := Form.extent_of_dataWidth? hform
    have hindex := reads_sized (r := r) hpos hle hfits
    rw [UInt64.ofNat_toNat, ← PathRecord.decodeIndex_of_dataWidth? hform] at hindex
    exact hindex.map
  | group h => exact (reads_uleb128 h).map
  | other hpath hdirectory h =>
    rw [PathRecord.decodeField, if_neg hpath, if_neg hdirectory]
    exact h.reads_skipValue.map

/-- What a table says of a field of all its entries: what the field means, and its form. -/
structure WrittenFormat where
  content : List UInt8
  form : Form
  code : List UInt8
  isGroup_content : Leb128.IsGroup content
  isGroup_code : Leb128.IsGroup code
  hasCode : form.HasCode (Leb128.unsigned code)

namespace WrittenFormat

def bytes (x : WrittenFormat) : List UInt8 := x.content ++ x.code

def field (x : WrittenFormat) : UInt64 × Form := (Leb128.unsigned x.content, x.form)

theorem reads_decodeFormat (x : WrittenFormat) :
    PathRecord.decodeFormat.Reads r x.bytes x.field := by
  refine (reads_uleb128 x.isGroup_content).bind ((reads_uleb128 x.isGroup_code).bind_nil ?_)
  rw [Form.ofCode_eq_iff.2 x.hasCode]
  exact reads_pure _

end WrittenFormat

/-- What a field of an entry says, as a table writes it. -/
structure WrittenField (sections : DebugSections) (r : Region) where
  field : UInt64 × Form
  value : PathField
  bytes : List UInt8
  writes : value.Writes sections r field bytes

structure WrittenRecord (sections : DebugSections) (r : Region)
    (fields : List (UInt64 × Form)) where
  values : List (WrittenField sections r)
  fields_eq : fields = values.map (·.field)

namespace WrittenRecord

variable {fields : List (UInt64 × Form)}

def bytes (x : WrittenRecord sections r fields) : List UInt8 := x.values.flatMap (·.bytes)

def record (x : WrittenRecord sections r fields) : PathRecord :=
  x.values.foldl (fun record field => record.set field.value) {}

theorem reads_foldlM_map (values : List (WrittenField sections r)) (record : PathRecord) :
    ((values.map (·.field)).foldlM (PathRecord.decodeField sections) record).Reads r
      (values.flatMap (·.bytes))
      (values.foldl (fun record field => record.set field.value) record) := by
  induction values generalizing record with
  | nil => exact reads_pure record
  | cons field values ih =>
    rw [List.map_cons, List.foldlM_cons]
    exact (field.writes.reads_decodeField record).bind (ih _)

theorem reads_foldlM (x : WrittenRecord sections r fields) :
    (fields.foldlM (PathRecord.decodeField sections) {}).Reads r x.bytes x.record := by
  obtain ⟨values, rfl⟩ := x
  exact reads_foldlM_map values {}

end WrittenRecord

/-- A table of version 5 as it is written. -/
structure WrittenTable (sections : DebugSections) (r : Region) where
  formats : List WrittenFormat
  count : List UInt8
  records : List (WrittenRecord sections r (formats.map (·.field)))
  length_formats_lt : formats.length < 1 <<< (8 * 1)
  isGroup_count : Leb128.IsGroup count
  count_eq : (Leb128.unsigned count).toNat = records.length

namespace WrittenTable

def bytes (x : WrittenTable sections r) : List UInt8 :=
  r.order.encode 1 x.formats.length ++
    (x.formats.flatMap (·.bytes) ++ (x.count ++ x.records.flatMap (·.bytes)))

def entries (x : WrittenTable sections r) : Array PathRecord := (x.records.map (·.record)).toArray

theorem reads_decodeTable (x : WrittenTable sections r) :
    (PathRecord.decodeTable sections).Reads r x.bytes x.entries := by
  have hformats := reads_times (r := r)
    fun format (_ : format ∈ x.formats) => format.reads_decodeFormat
  have hrecords := reads_times (r := r) fun record (_ : record ∈ x.records) => record.reads_foldlM
  rw [← x.count_eq] at hrecords
  exact (reads_encode x.length_formats_lt).bind
    (hformats.bind ((reads_uleb128 x.isGroup_count).bind hrecords))

end WrittenTable

structure WrittenTables (sections : DebugSections) (r : Region) where
  directories : WrittenTable sections r
  files : WrittenTable sections r

namespace WrittenTables

variable (x : WrittenTables sections r) (compDir : String)

def bytes : List UInt8 := x.directories.bytes ++ x.files.bytes

def directoryPaths : Array String :=
  x.directories.entries.map fun directory => joinSource compDir directory.path

def filePaths : Array String :=
  x.files.entries.map fun file =>
    LineTable.pathIn compDir (x.directoryPaths compDir) (some file.directory.toNat) file.path

theorem reads_decodeFiles :
    (LineTable.decodeFiles sections compDir).Reads r x.bytes
      (x.directoryPaths compDir, x.filePaths compDir) :=
  x.directories.reads_decodeTable.bind (x.files.reads_decodeTable.bind_nil (reads_pure _))

end WrittenTables

namespace LineTable

/-- The bytes of directories and files in the header of a version, and the paths that a unit which
names the table knows them by. -/
inductive WritesFiles (sections : DebugSections) (source : LineSource) (r : Region)
    (version : Nat) : Array String → Array String → List UInt8 → Prop
  | lists (hversion : ¬ 5 ≤ version) (x : WrittenLists) :
      WritesFiles sections source r version (x.directoryPaths (source.compDir.getD ""))
        (x.filePaths (source.compDir.getD "") (source.compName.getD "")) x.bytes
  | tables (hversion : 5 ≤ version) (x : WrittenTables sections r) :
      WritesFiles sections source r version (x.directoryPaths (source.compDir.getD ""))
        (x.filePaths (source.compDir.getD "")) x.bytes

/-- The decoder of directories and files in the header of a version. -/
def fileDecoder (sections : DebugSections) (source : LineSource) (version : Nat) :
    Decoder (Array String × Array String) :=
  if 5 ≤ version then decodeFiles sections (source.compDir.getD "")
  else decodeLegacyFiles (source.compDir.getD "") (source.compName.getD "")

theorem WritesFiles.reads_fileDecoder {source : LineSource} {version : Nat}
    {directories fileNames : Array String} {bytes : List UInt8}
    (h : WritesFiles sections source r version directories fileNames bytes) :
    (fileDecoder sections source version).Reads r bytes (directories, fileNames) := by
  rw [fileDecoder]
  cases h with
  | lists hversion x =>
    rw [if_neg hversion]
    exact x.reads_decodeLegacyFiles ..
  | tables hversion x =>
    rw [if_pos hversion]
    exact x.reads_decodeFiles _

end LineTable

end Dwarf

end StackSurvey
