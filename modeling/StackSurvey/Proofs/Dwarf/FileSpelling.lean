import StackSurvey.Proofs.Dwarf.SourceFiles
import StackSurvey.Proofs.Dwarf.WrittenLineTable
import StackSurvey.Proofs.Path.SourceNames
import StackSurvey.StackReport

namespace StackSurvey.Dwarf

open StackSurvey.Path

/-- The names of the files that the header of a table lists, that of the primary file included. -/
inductive LineTable.ListsNames (sections : DebugSections) (source : LineSource) (r : Region)
    (version : Nat) : List String → List UInt8 → Prop
  | lists (hversion : ¬ 5 ≤ version) (x : WrittenLists) :
      ListsNames sections source r version (source.compName.getD "" :: x.files.map (·.name)) x.bytes
  | tables (hversion : 5 ≤ version) (x : WrittenTables sections r) :
      ListsNames sections source r version (x.files.records.map (·.name)) x.bytes

/-- A path is that of a name in some directory. -/
def IsJoined (path name : String) : Prop := ∃ dir, path = joinSource dir name

theorem LineTable.ListsNames.exists_writesFiles {sections : DebugSections} {source : LineSource}
    {r : Region} {version : Nat} {names : List String} {bytes : List UInt8}
    (h : ListsNames sections source r version names bytes) :
    ∃ directories fileNames,
      WritesFiles sections source r version directories fileNames bytes ∧
        List.Forall₂ IsJoined fileNames.toList names := by
  cases h with
  | lists hversion x =>
    refine ⟨_, _, .lists hversion x, ?_⟩
    rw [x.toList_filePaths]
    refine .cons ⟨_, rfl⟩ (List.forall₂_map_left_iff.2 (List.forall₂_map_right_iff.2 ?_))
    exact List.forall₂_same.2 fun _ _ => ⟨_, rfl⟩
  | tables hversion x =>
    refine ⟨_, _, .tables hversion x, ?_⟩
    rw [x.toList_filePaths]
    refine List.forall₂_map_left_iff.2 (List.forall₂_map_right_iff.2 ?_)
    exact List.forall₂_same.2 fun _ _ => ⟨_, rfl⟩

/-- The file that an instruction adds to those of the header. -/
def definedFile? : LineInstruction → Option FileRecord
  | .defineFile file => some file
  | _ => none

section Program

variable {header : LineHeader} {path : FileRecord → String}

theorem toList_fileNames_step (s : LineState) (instruction : LineInstruction) :
    (s.step header path instruction).fileNames.toList =
      s.fileNames.toList ++ ((definedFile? instruction).map path).toList := by
  cases instruction with
  | defineFile file => exact Array.toList_push
  | _ => exact (List.append_nil _).symm

/-- A program adds the files that it defines, behind those of the header. -/
theorem toList_fileNames_foldl_step (instructions : List LineInstruction) (s : LineState) :
    (instructions.foldl (LineState.step header path) s).fileNames.toList =
      s.fileNames.toList ++ (instructions.filterMap definedFile?).map path := by
  induction instructions generalizing s with
  | nil => exact (List.append_nil _).symm
  | cons instruction instructions ih =>
    rw [List.foldl_cons, ih, toList_fileNames_step, List.filterMap_cons, List.append_assoc]
    cases definedFile? instruction <;> rfl

end Program

/-- The names of the files that the program of a table defines. -/
def WrittenLineTable.definedNames (x : WrittenLineTable) : List String :=
  (x.instructions.filterMap definedFile?).map (·.name)

theorem WrittenLineTable.exists_load {x : WrittenLineTable} {sections : DebugSections}
    {source : LineSource} {names : List String} (h : x.LiesIn sections source)
    (hnames : LineTable.ListsNames sections source
      (x.region source.offset.toNat (x.addressSizeIn source)) x.version names x.files) :
    ∃ table, LineTable.load sections source = .ok table ∧
      List.Forall₂ IsJoined table.fileNames.toList (names ++ x.definedNames) := by
  obtain ⟨directories, fileNames, hwrites, hjoined⟩ := hnames.exists_writesFiles
  have hlies : { x with directories, fileNames }.LiesIn sections source :=
    ⟨h.order_eq, h.fits, hwrites, h.holds⟩
  refine ⟨_, load_of_liesIn hlies, ?_⟩
  rw [table]
  dsimp only
  rw [toList_fileNames_foldl_step]
  refine List.rel_append hjoined (List.forall₂_map_left_iff.2 (List.forall₂_map_right_iff.2 ?_))
  exact List.forall₂_same.2 fun _ _ => ⟨_, rfl⟩

/-- A name ends the path that it has from any directory exactly if it names something. So the paths
that a line table gives to its files, those of its header and those of its program, end with their
names, and a symbol whose source is such a path is declared in the file of that name. -/
theorem endsWith_joinSource_names :
    (∀ dir name : String, endsWith (joinSource dir name) name = true ↔ NamesSomething name) ∧
    (∀ (x : WrittenLineTable) (sections : DebugSections) (source : LineSource)
      (names : List String), x.LiesIn sections source →
      LineTable.ListsNames sections source
        (x.region source.offset.toNat (x.addressSizeIn source)) x.version names x.files →
      ∃ table, LineTable.load sections source = .ok table ∧
        List.Forall₂ (fun path name => NamesSomething name → endsWith path name = true)
          table.fileNames.toList (names ++ x.definedNames)) ∧
    ∀ (symbols : SymbolTable) (dir name : String), NamesSomething name →
      ∀ s ∈ symbols.symbols, s.notes.source.map (·.path) = some (joinSource dir name) →
        StackReport.declaredIn symbols s.displayName name = true := by
  refine ⟨endsWith_joinSource_iff, fun x sections source names h hnames => ?_,
    fun symbols dir name hname s hs hsource => ?_⟩
  · obtain ⟨table, hload, hjoined⟩ := x.exists_load h hnames
    refine ⟨table, hload, hjoined.imp ?_⟩
    rintro _ name ⟨dir, rfl⟩ hname
    exact (endsWith_joinSource_iff dir name).2 hname
  · obtain ⟨location, hlocation, hpath⟩ := Option.map_eq_some_iff.1 hsource
    refine Array.any_eq_true'.2 ⟨s, hs, ?_⟩
    rw [Bool.and_eq_true]
    refine ⟨beq_self_eq_true _, (Option.any_eq_true ..).2 ⟨location, hlocation, ?_⟩⟩
    rw [hpath]
    exact (endsWith_joinSource_iff dir name).2 hname

def dottedFile : WrittenFile where
  text := [0x2e, 0x5c, 0x61]
  ne_nil := List.cons_ne_nil _ _
  zero_notMem := by decide
  directory := [0x80, 0]
  time := [0x2a]
  size := [0x2b]
  isGroup_directory := .cons rfl (.last rfl)
  isGroup_time := .last rfl
  isGroup_size := .last rfl

def dottedFiles : WrittenLists := ⟨[], [dottedFile]⟩

/-- A table with a file of a name that begins with a dot, and a program that defines one on a
drive. -/
def spellingTable : WrittenLineTable :=
  { sampleTable with
    fileNames := dottedFiles.filePaths "/w/" "m"
    files := dottedFiles.bytes
    program :=
      have hfile : LineInstruction.Payload .little
          (.defineFile ⟨Utf8.lossy [0x43, 0x3a, 0x2f, 0x62], Leb128.unsigned [0]⟩)
          [3, 0x43, 0x3a, 0x2f, 0x62, 0, 0, 0, 0] :=
        .defineFile (by decide) (.last rfl) (.last rfl) (.last rfl) []
      [⟨_, [0, 9, 3, 0x43, 0x3a, 0x2f, 0x62, 0, 0, 0, 0],
        .extended (.last (b := 9) rfl) rfl hfile⟩] }

def spellingSections : DebugSections where
  line := some ⟨spellingTable.bytes.toArray⟩

def spellingSource : LineSource :=
  { offset := 0, order := .little, compDir := some "/w/", compName := some "m" }

theorem liesIn_spellingTable : spellingTable.LiesIn spellingSections spellingSource where
  order_eq := rfl
  fits := show spellingTable.content.length < 0xfffffff0 by decide
  writes_files := .lists (show ¬ 5 ≤ spellingTable.version by decide) dottedFiles
  holds := ⟨_, rfl, (Window.endsWith_whole rfl).holds⟩

theorem namesSomething_of_mem (part : String) {name : String}
    (h : .name part ∈ lead (name.toList.map fun c => if c = '\\' then '/' else c) ++
      body (name.toList.map fun c => if c = '\\' then '/' else c)) : NamesSomething name := by
  refine ⟨.name part, ?_, Component.noConfusion⟩
  rwa [components_eq, toList_withSlashes]

theorem endsWith_joinSource_names_spellingTable :
    ∃ table, LineTable.load spellingSections spellingSource = .ok table ∧
      List.Forall₂ (fun path name => endsWith path name = true) table.fileNames.toList
        ["m", ".\\a", "C:/b"] := by
  obtain ⟨table, hload, hends⟩ := endsWith_joinSource_names.2.1 spellingTable spellingSections
    spellingSource _ liesIn_spellingTable
    (.lists (show ¬ 5 ≤ spellingTable.version by decide) dottedFiles)
  refine ⟨table, hload, ?_⟩
  have hnames : spellingSource.compName.getD "" :: dottedFiles.files.map (·.name) ++
      spellingTable.definedNames = ["m", ".\\a", "C:/b"] := rfl
  rw [hnames] at hends
  generalize table.fileNames.toList = paths at hends ⊢
  obtain _ | ⟨hprimary, _ | ⟨hlisted, _ | ⟨hdefined, hrest⟩⟩⟩ := hends
  cases hrest
  exact .cons (hprimary (namesSomething_of_mem "m" (by decide)))
    (.cons (hlisted (namesSomething_of_mem "a" (by decide)))
      (.cons (hdefined (namesSomething_of_mem "b" (by decide))) .nil))

end StackSurvey.Dwarf
