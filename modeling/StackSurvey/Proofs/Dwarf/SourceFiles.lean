import Mathlib.Data.List.Forall2
import StackSurvey.Proofs.Dwarf.LineTableBytes

namespace StackSurvey.Dwarf

open Decoder StackSurvey.Path

/-- The path of a file, by the index of its directory where directories are counted from `first` on.
An index without a directory stands for that of the compilation. -/
inductive PathAt (compDir : String) (directories : List String) (first : Nat) (name : String) :
    Nat → String → Prop
  | listed {i : Nat} {directory : String} (h : directories[i]? = some directory) :
      PathAt compDir directories first name (first + i) (joinSource directory name)
  | unknown {index : Nat} (h : index < first ∨ first + directories.length ≤ index) :
      PathAt compDir directories first name index (joinSource compDir name)

section Paths

variable {compDir name : String} {directories : List String} {first index : Nat}

theorem PathAt.unique {path other : String} (h : PathAt compDir directories first name index path)
    (hother : PathAt compDir directories first name index other) : path = other := by
  cases h with
  | @listed i directory hi =>
    have hlt := (List.getElem?_eq_some_iff.1 hi).1
    generalize hindex : first + i = index at hother
    cases hother with
    | @listed j directory' hj =>
      obtain rfl : i = j := by omega
      rw [Option.some.inj (hi.symm.trans hj)]
    | unknown hunknown => omega
  | unknown hunknown =>
    cases hother with
    | @listed j directory' hj =>
      have hlt := (List.getElem?_eq_some_iff.1 hj).1
      omega
    | unknown => rfl

theorem eq_of_forall₂_pathAt {α : Type} {names : α → String} {indices : α → Nat} {files : List α}
    {paths others : List String}
    (h : List.Forall₂ (fun file path =>
      PathAt compDir directories first (names file) (indices file) path) files paths)
    (hothers : List.Forall₂ (fun file path =>
      PathAt compDir directories first (names file) (indices file) path) files others) :
    paths = others :=
  List.right_unique_forall₂' (fun _ _ _ hpath hother => hpath.unique hother) h hothers

end Paths

section Indices

variable {compDir name : String} {directories : Array String} {first index : Nat}

theorem pathAt_pathIn (h : first ≤ index) :
    PathAt compDir directories.toList first name index
      (LineTable.pathIn compDir directories (some (index - first)) name) := by
  obtain ⟨i, rfl⟩ := Nat.exists_eq_add_of_le h
  rw [Nat.add_sub_cancel_left, LineTable.pathIn, Option.bind_some]
  cases hi : directories[i]? with
  | some directory => exact .listed (by rwa [Array.getElem?_toList])
  | none =>
    have hsize := Array.getElem?_eq_none_iff.1 hi
    exact .unknown (.inr (Nat.add_le_add_left hsize first))

theorem pathAt_legacyPath (file : FileRecord) :
    PathAt compDir directories.toList 1 file.name file.directory.toNat
      (LineTable.legacyPath compDir directories file) := by
  rw [LineTable.legacyPath, LineTable.legacyIndex]
  split
  · rename_i hzero
    rw [hzero]
    exact .unknown (.inl Nat.one_pos)
  · rename_i hne
    have hpos : 0 < file.directory.toNat :=
      Nat.pos_of_ne_zero fun hzero => hne (UInt64.toNat_inj.1 hzero)
    exact pathAt_pathIn hpos

end Indices

/-- The index that a file of versions 2 to 4 has of its directory. -/
def WrittenFile.index (x : WrittenFile) : Nat := (Leb128.unsigned x.directory).toNat

namespace PathField

def path? : PathField → Option String
  | path text => some (Utf8.lossy text)
  | _ => none

def directory? : PathField → Option UInt64
  | directory index => some index
  | _ => none

end PathField

/-- A value that items may replace is the last one that they give. -/
theorem foldl_getD {α β : Type} (f : α → Option β) (xs : List α) (b : β) :
    xs.foldl (fun b a => (f a).getD b) b = (xs.filterMap f).getLast?.getD b := by
  induction xs generalizing b with
  | nil => rfl
  | cons a xs ih =>
    rw [List.foldl_cons, ih]
    cases h : f a with
    | none =>
      rw [List.filterMap_cons_none h]
      rfl
    | some c =>
      rw [List.filterMap_cons_some h, List.getLast?_cons]
      rfl

namespace WrittenRecord

variable {sections : DebugSections} {r : Region} {fields : List (UInt64 × Form)}

/-- The path, wherever it stands among the fields; the last one, if there are more. -/
def name (x : WrittenRecord sections r fields) : String :=
  (x.values.filterMap fun field => field.value.path?).getLast?.getD ""

/-- The index of the directory, wherever it stands among the fields; the last one, if there are
more. -/
def index (x : WrittenRecord sections r fields) : Nat :=
  let indices := x.values.filterMap fun field => field.value.directory?
  (indices.getLast?.getD 0).toNat

theorem foldl_set (values : List (WrittenField sections r)) (record : PathRecord) :
    values.foldl (fun record field => record.set field.value) record =
      { path := values.foldl (fun path field => (field.value.path?).getD path) record.path
        directory := values.foldl (fun index field => (field.value.directory?).getD index)
          record.directory } := by
  induction values generalizing record with
  | nil => rfl
  | cons field values ih =>
    simp only [List.foldl_cons]
    rw [ih]
    cases field.value <;> rfl

theorem path_record (x : WrittenRecord sections r fields) : x.record.path = x.name := by
  rw [record, foldl_set]
  exact foldl_getD ..

theorem toNat_directory_record (x : WrittenRecord sections r fields) :
    x.record.directory.toNat = x.index := by
  rw [record, foldl_set]
  exact congrArg UInt64.toNat (foldl_getD ..)

end WrittenRecord

theorem WrittenLists.toList_filePaths (x : WrittenLists) (compDir compName : String) :
    (x.filePaths compDir compName).toList =
      joinSource compDir compName :: x.files.map fun file =>
        LineTable.legacyPath compDir (x.directoryPaths compDir) file.record := by
  rw [filePaths, Array.toList_append]
  rfl

namespace WrittenTables

variable {sections : DebugSections} {r : Region}

theorem toList_directoryPaths (x : WrittenTables sections r) (compDir : String) :
    (x.directoryPaths compDir).toList =
      x.directories.records.map fun directory => joinSource compDir directory.name := by
  rw [directoryPaths, Array.toList_map, WrittenTable.entries, List.map_map]
  exact List.map_congr_left fun directory _ => congrArg _ directory.path_record

theorem toList_filePaths (x : WrittenTables sections r) (compDir : String) :
    (x.filePaths compDir).toList =
      x.files.records.map fun file =>
        LineTable.pathIn compDir (x.directoryPaths compDir) (some file.index) file.name := by
  rw [filePaths, Array.toList_map, WrittenTable.entries, List.map_map]
  refine List.map_congr_left fun file _ => ?_
  rw [Function.comp_apply, file.path_record, file.toNat_directory_record]

end WrittenTables

namespace EncodedLineTable

variable {x : EncodedLineTable} {sections : DebugSections} {source : LineSource}

/-- A table without a program is loaded with the files that its header lists. -/
theorem LiesIn.load_of_program_eq_nil {directories fileNames : Array String}
    (h : x.LiesIn sections source) (hrange : x.header.lineRange ≠ 0) (hprogram : x.program = [])
    (hfiles : LineTable.WritesFiles sections source (x.headerRegion source) x.version directories
      fileNames x.files) :
    LineTable.load sections source =
      .ok { version := x.version, includeDirectories := directories, fileNames, rows := ∅ } := by
  have hruns : x.Runs sections source directories fileNames { fileNames } := by
    refine ⟨hrange, hfiles.reads_fileDecoder, fun w pos _ hends => ?_⟩
    rw [hprogram] at hends
    have hlimit : w.limit = pos := hends.limit_eq
    rw [LineState.runProgram, drain, if_neg (Nat.not_lt_of_le (Nat.le_of_eq hlimit)), hlimit]
  exact h.load_of_runs hruns

/-- A table with a line range and without a program is loaded with the directories and the files of
its header, each file in the directory that its index stands for: in versions 2 to 4 behind the
primary file and with directories counted from one, in version 5 with directories counted from
zero. -/
theorem paths_load (hrange : x.header.lineRange ≠ 0) (hprogram : x.program = [])
    (h : x.LiesIn sections source) :
    (∀ lists : WrittenLists, x.version ≤ 4 → x.files = lists.bytes →
      ∃ table paths, LineTable.load sections source = .ok table ∧
        table.includeDirectories.toList =
          lists.directories.map (fun d => joinSource (source.compDir.getD "") d.name) ∧
        table.fileNames.toList =
          joinSource (source.compDir.getD "") (source.compName.getD "") :: paths ∧
        List.Forall₂ (fun file path => PathAt (source.compDir.getD "")
          table.includeDirectories.toList 1 file.name file.index path) lists.files paths) ∧
    ∀ tables : WrittenTables sections (x.headerRegion source),
      x.version = 5 → x.files = tables.bytes →
      ∃ table, LineTable.load sections source = .ok table ∧
        table.includeDirectories.toList =
          tables.directories.records.map (fun d => joinSource (source.compDir.getD "") d.name) ∧
        List.Forall₂ (fun file path => PathAt (source.compDir.getD "")
          table.includeDirectories.toList 0 file.name file.index path)
          tables.files.records table.fileNames.toList := by
  constructor
  · intro lists hversion hfiles
    have hwrites : LineTable.WritesFiles sections source (x.headerRegion source) x.version
        (lists.directoryPaths _) (lists.filePaths _ _) lists.bytes := .lists (by omega) lists
    rw [← hfiles] at hwrites
    refine ⟨_, _, h.load_of_program_eq_nil hrange hprogram hwrites, rfl,
      lists.toList_filePaths .., ?_⟩
    exact List.forall₂_map_right_iff.2
      (List.forall₂_same.2 fun file _ => pathAt_legacyPath file.record)
  · intro tables hversion hfiles
    have hwrites : LineTable.WritesFiles sections source (x.headerRegion source) x.version
        (tables.directoryPaths _) (tables.filePaths _) tables.bytes := .tables (by omega) tables
    rw [← hfiles] at hwrites
    refine ⟨_, h.load_of_program_eq_nil hrange hprogram hwrites, tables.toList_directoryPaths _, ?_⟩
    rw [tables.toList_filePaths]
    exact List.forall₂_map_right_iff.2
      (List.forall₂_same.2 fun file _ => pathAt_pathIn (Nat.zero_le file.index))

end EncodedLineTable

/-- A header without opcodes. -/
def bareHeader (lineRange : UInt8) : EncodedLineHeader where
  minInstructionLength := 1
  maxOperations := 1
  defaultIsStatement := 1
  lineBase := -3
  lineRange := lineRange
  opcodeBase := 0
  operandCounts := []
  length_operandCounts := rfl

def listsTable (lineRange : UInt8) : EncodedLineTable where
  format := .bits32
  order := .little
  version := 3
  addressSize := 0
  selectorSize := 0
  header := bareHeader lineRange
  files := [0x69, 0, 0, 0x61, 0, 0, 0x21, 0x22, 0x62, 0, 1, 0x21, 0x22, 0x63, 0, 9, 0x21, 0x22, 0]
  padding := []
  program := []
  version_bounds := by decide

def listedFile (name directory : UInt8) (hname : name ≠ 0) (h : Leb128.isLast directory = true) :
    WrittenFile where
  text := [name]
  ne_nil := List.cons_ne_nil _ _
  zero_notMem := fun hzero => hname (List.mem_singleton.1 hzero).symm
  directory := [directory]
  time := [0x21]
  size := [0x22]
  isGroup_directory := .last h
  isGroup_time := .last rfl
  isGroup_size := .last rfl

/-- A directory, a file that is in none, one that is in it and one in a directory that is not
listed. -/
def listedFiles : WrittenLists where
  directories := [⟨[0x69], List.cons_ne_nil _ _, by decide⟩]
  files :=
    [listedFile 0x61 0 (by decide) rfl, listedFile 0x62 1 (by decide) rfl,
      listedFile 0x63 9 (by decide) rfl]

def listsSections (lineRange : UInt8) : DebugSections where
  line := some ⟨(listsTable lineRange).bytes.toArray⟩

def listsSource : LineSource :=
  { offset := 0, order := .little, compDir := some "/w", compName := some "m" }

theorem liesIn_listsTable (lineRange : UInt8) :
    (listsTable lineRange).LiesIn (listsSections lineRange) listsSource where
  order_eq := rfl
  fits := by
    change 30 < 0xfffffff0
    decide
  holds := ⟨_, rfl, (Window.endsWith_whole rfl).holds⟩

/-- A table of version 5 whose directories come before the paths in its entries, and a digest
between them. -/
def tablesTable : EncodedLineTable where
  format := .bits64
  order := .big
  version := 5
  addressSize := 8
  selectorSize := 0
  header := bareHeader 12
  files :=
    [1, 1, 8, 0x81, 0, 0x64, 0] ++
      ([3, 2, 0x0f, 5, 0x1e, 1, 0x1f, 0x82, 0] ++
        (0 :: List.replicate 16 0xff ++ [0, 0, 0, 0, 0, 0, 0, 0] ++
          (7 :: List.replicate 16 0xff ++ [0, 0, 0, 0, 0, 0, 0, 2])))
  padding := []
  program := []
  version_bounds := by decide

def tablesSections : DebugSections where
  line := some ⟨tablesTable.bytes.toArray⟩
  lineStr := some ⟨#[0x78, 0, 0x79, 0]⟩

def tablesSource : LineSource := { offset := 0, order := .big, compDir := some "/w" }

theorem liesIn_tablesTable : tablesTable.LiesIn tablesSections tablesSource where
  order_eq := rfl
  fits := by
    change 84 + 12 < 1 <<< 64
    decide
  holds := ⟨_, rfl, (Window.endsWith_whole rfl).holds⟩

def tablesRegion : Region := tablesTable.headerRegion tablesSource

theorem spans_digest (b : UInt8) :
    Form.data16.extent.Spans tablesRegion 5 (List.replicate 16 b) :=
  .fixed (List.replicate 16 b)

/-- An entry of the second table. -/
def fileEntry (directory text : UInt8) (offset : UInt64) (h : Leb128.isLast directory = true)
    (htext : tablesSections.HasText .lineStr .big offset.toNat [text])
    (hfits : offset.toNat < 1 <<< (8 * 8)) :
    WrittenRecord tablesSections tablesRegion [(2, .udata), (5, .data16), (1, .lineStrp)] where
  values :=
    [⟨(2, .udata), .directory (Leb128.unsigned [directory]), [directory], .group (.last h)⟩,
      ⟨(5, .data16), .other, List.replicate 16 0xff,
        .other (by decide) (by decide) (.direct Form.noConfusion (spans_digest 0xff))⟩,
      ⟨(1, .lineStrp), .path [text], ByteOrder.big.encode 8 offset.toNat,
        .sectionText rfl htext hfits⟩]
  fields_eq := rfl

def formatOf (content : UInt8) (form : Form) (hcontent : Leb128.isLast content = true)
    (hnamed : form.isNamed = true) : WrittenFormat where
  content := [content]
  form := form
  code := [form.code.toUInt8]
  isGroup_content := .last hcontent
  isGroup_code := .last (Form.isLast_code hnamed)
  hasCode := .inByte hnamed

def tabledFiles : WrittenTables tablesSections tablesRegion where
  directories :=
    { formats := [formatOf 1 .string rfl rfl]
      count := [0x81, 0]
      records := [⟨[⟨(1, .string), .path [0x64], [0x64] ++ [0], .text (by decide)⟩], rfl⟩]
      length_formats_lt := by decide
      isGroup_count := .cons rfl (.last rfl)
      count_eq := rfl }
  files :=
    { formats :=
        [formatOf 2 .udata rfl rfl, formatOf 5 .data16 rfl rfl, formatOf 1 .lineStrp rfl rfl]
      count := [0x82, 0]
      records :=
        [fileEntry 0 0x78 0 rfl ⟨by decide, _, rfl, by decide, rfl⟩ (by decide),
          fileEntry 7 0x79 2 rfl ⟨by decide, _, rfl, by decide, rfl⟩ (by decide)]
      length_formats_lt := by decide
      isGroup_count := .cons rfl (.last rfl)
      count_eq := rfl }

/-- In version 3 an index of zero and one past the directories stand for the directory of the
compilation, in version 5 only the latter does. -/
theorem paths_load_bareHeader :
    (∃ table, LineTable.load (listsSections 12) listsSource = .ok table ∧
      table.includeDirectories.toList = ["/w/i"] ∧
      table.fileNames.toList = ["/w/m", "/w/a", "/w/i/b", "/w/c"]) ∧
    ∃ table, LineTable.load tablesSections tablesSource = .ok table ∧
      table.includeDirectories.toList = ["/w/d"] ∧ table.fileNames.toList = ["/w/d/x", "/w/y"] := by
  constructor
  · obtain ⟨table, paths, hload, hdirectories, hnames, hpaths⟩ :=
      (EncodedLineTable.paths_load (x := listsTable 12) (by decide) rfl (liesIn_listsTable 12)).1
        listedFiles (by decide) rfl
    rw [hdirectories] at hpaths
    have hlisted : PathAt "/w" ["/w/i"] 1 "b" 1 "/w/i/b" := @PathAt.listed _ _ _ _ 0 "/w/i" rfl
    have hexpected : List.Forall₂
        (fun file path => PathAt "/w" ["/w/i"] 1 file.name file.index path)
        listedFiles.files ["/w/a", "/w/i/b", "/w/c"] :=
      .cons (.unknown (by decide)) (.cons hlisted (.cons (.unknown (by decide)) .nil))
    obtain rfl := eq_of_forall₂_pathAt hpaths hexpected
    exact ⟨table, hload, hdirectories, hnames⟩
  · obtain ⟨table, hload, hdirectories, hpaths⟩ :=
      (EncodedLineTable.paths_load (x := tablesTable) (by decide) rfl liesIn_tablesTable).2
        tabledFiles rfl rfl
    rw [hdirectories] at hpaths
    have hlisted : PathAt "/w" ["/w/d"] 0 "x" 0 "/w/d/x" := @PathAt.listed _ _ _ _ 0 "/w/d" rfl
    have hexpected : List.Forall₂
        (fun file path => PathAt "/w" ["/w/d"] 0 file.name file.index path)
        tabledFiles.files.records ["/w/d/x", "/w/y"] :=
      .cons hlisted (.cons (.unknown (by decide)) .nil)
    exact ⟨table, hload, hdirectories, eq_of_forall₂_pathAt hpaths hexpected⟩

/-- A header whose line range is zero is malformed, whatever files it lists. -/
theorem load_listsTable_zero :
    (listsTable 0).program = [] ∧ (listsTable 0).files = listedFiles.bytes ∧
      (listsTable 0).LiesIn (listsSections 0) listsSource ∧
      LineTable.load (listsSections 0) listsSource = .error .zeroLineRange :=
  ⟨rfl, rfl, liesIn_listsTable 0, rfl⟩

end StackSurvey.Dwarf
