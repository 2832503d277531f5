import StackSurvey.Files.Tree

namespace StackSurvey

/-- A file where it was found. -/
structure FoundFile where
  directory : String
  name : String
  contents : Except SystemFault ByteArray

namespace FoundFile

def path (f : FoundFile) : String := Path.join f.directory f.name

/-- True of the names of stack reports. -/
def isReportName (name : String) : Bool := ".su".toList.isSuffixOf name.toList

/-- True of the names of call graph dumps. -/
def isDumpName (name : String) : Bool := ".cgraph".toList.isSuffixOf name.toList

/-- The path of a report up to the last dot, with it. -/
def stem (report : FoundFile) : List Char :=
  report.path.toList.take (report.path.length - "su".length)

/-- Files in the order of their paths. -/
def inPathOrder (files : List FoundFile) : List FoundFile :=
  files.mergeSort fun a b => (Path.compare a.path b.path).isLE

end FoundFile

/-- A stack report and the call graph dump that belongs to it. -/
structure StackFiles where
  report : FoundFile
  dump : Option FoundFile

namespace StackFiles

/-- A report with the first of the dumps whose path begins as its own does. -/
def ofReport (dumps : List FoundFile) (report : FoundFile) : StackFiles where
  report
  dump := dumps.find? fun dump => report.stem.isPrefixOf dump.path.toList

/-- The reports among files, in the order of their paths, with their dumps. -/
def ofFiles (files : List FoundFile) : List StackFiles :=
  let files := FoundFile.inPathOrder files
  (files.filter (FoundFile.isReportName ·.name)).map
    (ofReport (files.filter (FoundFile.isDumpName ·.name)))

end StackFiles

/-- A directory that cannot be read. -/
structure SearchFault where
  directory : String
  cause : SystemFault
deriving DecidableEq, Inhabited

def SearchFault.message (e : SearchFault) : String := s!"reading directory {e.directory}"

namespace FileTree

mutual

/-- The files that an entry of a directory stands for. -/
def entryFiles (parent name : String) : FileTree → List FoundFile
  | file contents => [⟨parent, name, contents⟩]
  | directory entries => filesIn (Path.join parent name) entries

/-- The files in and below a directory with a path. -/
def filesIn (path : String) : List (String × FileTree) → List FoundFile
  | [] => []
  | (name, tree) :: rest => entryFiles path name tree ++ filesIn path rest

end

/-- The stack files in and below a directory with a path. -/
def stackFiles (path : String) : FileTree → Except SearchFault (List StackFiles)
  | file _ => .error ⟨path, .notDirectory⟩
  | directory entries => .ok (StackFiles.ofFiles (filesIn path entries))

/-- The stack files in and below the directory that a path leads to. -/
def findStackFiles (tree : FileTree) (path : String) : Except SearchFault (List StackFiles) :=
  match tree.find path with
  | .ok here => here.stackFiles path
  | .error cause => .error ⟨path, cause⟩

end FileTree

end StackSurvey
