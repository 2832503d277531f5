import StackSurvey.CallGraph.Compute
import StackSurvey.CallGraph.Dump
import StackSurvey.CallGraph.Merge
import StackSurvey.Dwarf.Attribution
import StackSurvey.Elf.Symbols
import StackSurvey.Files.StackFiles
import StackSurvey.Mangling.Demangle

namespace StackSurvey

/-- What to survey. -/
structure SurveyRequest where
  /-- The path of the ELF file. -/
  image : String
  /-- The directory of the stack files, if it is not to be derived. -/
  stackDir : Option String := none
  debugInfo : Bool := true
deriving DecidableEq, Inhabited

/-- The directory to search for stack files: the one of the ELF file, or what is before the last
`zephyr` in its path, where builds for that system keep their objects. -/
def SurveyRequest.searchRoot (request : SurveyRequest) : String :=
  match request.stackDir with
  | some directory => directory
  | none =>
    let directory := match Path.parent? request.image with
      | some parent => if parent.isEmpty then "." else parent
      | none => "."
    match Text.beforeLast? "zephyr".toList directory.toList with
    | some before => if before.isEmpty then "." else .ofList before
    | none => directory

/-- Why there is no survey. -/
inductive SurveyFault where
  | unopened (path : String) (cause : SystemFault)
  | unmapped (path : String) (cause : SystemFault)
  | malformed (cause : Elf.Fault)

namespace SurveyFault

def message : SurveyFault → String
  | unopened path _ => s!"opening {path}"
  | unmapped path _ => s!"mapping {path}"
  | malformed cause => cause.message

/-- The message for what the system says about a fault. -/
def cause? : SurveyFault → Option String
  | unopened _ cause => some cause.message
  | unmapped _ cause => some cause.message
  | malformed _ => none

end SurveyFault

/-- What the stack files of a source file say. -/
structure StackData where
  report : StackReport
  graph : Option CallGraph

namespace StackData

def text? (file : FoundFile) : Option String :=
  file.contents.toOption.bind String.fromUTF8?

/-- The data of stack files, if all of them can be read. -/
def ofFiles? (files : StackFiles) : Option StackData := do
  let report := StackReport.parse (← text? files.report)
  match files.dump with
  | none => return { report, graph := none }
  | some dump =>
    let graph ← (CallGraph.parse (← text? dump)).toOption
    let (graph, report) := graph.compute report
    return { report, graph := some graph }

end StackData

/-- The findings on an ELF file. -/
structure Survey where
  symbols : SymbolTable
  /-- How symbols were attributed, if debug information was used. -/
  matchCounts : Option Dwarf.MatchCounts
  hasStackUsage : Bool
  hasCallGraph : Bool

namespace Survey

open Dwarf (DebugInfo MatchCounts)

def hasDebugInfo (s : Survey) : Bool := s.matchCounts.isSome

/-- Symbols with their sources, if the debug information can be read. -/
def withSources (image : Elf.Image) (symbols : SymbolTable) : SymbolTable × Option MatchCounts :=
  match DebugInfo.ofSections image.debugSections image.order with
  | .ok info => (info.attributeAll symbols).map id some
  | .error _ => (symbols, none)

def addStackData (data : List StackData) (hasDebugInfo : Bool) (symbols : SymbolTable) :
    SymbolTable :=
  let merged := StackReport.merge (data.map (·.report)) symbols hasDebugInfo
  (data.filterMap (·.graph)).foldl (fun symbols graph => (graph.mergeInto symbols).1)
    (merged.apply symbols).1

/-- Surveys the bytes of an ELF file together with stack files. -/
def ofImage (bytes : ByteArray) (debugInfo : Bool) (files : List StackFiles) :
    Except Elf.Fault Survey := do
  let image ← Elf.Image.ofFile bytes
  let (symbols, _) := (← image.symbolTable).demangleAll Mangling.demangle?
  let (symbols, matchCounts) :=
    if debugInfo && image.hasDebugInfo then withSources image symbols else (symbols, none)
  let data := files.filterMap StackData.ofFiles?
  return {
    symbols := addStackData data matchCounts.isSome symbols
    matchCounts
    hasStackUsage := !data.isEmpty
    hasCallGraph := data.any (·.graph.isSome) }

/-- Surveys what was found of the ELF file and the stack files. Without the latter, a survey has
no stack figures. -/
def ofFiles (image : Except SurveyFault ByteArray) (debugInfo : Bool)
    (files : Except SearchFault (List StackFiles)) : Except SurveyFault Survey := do
  (ofImage (← image) debugInfo (files.toOption.getD [])).mapError .malformed

end Survey

namespace FileTree

/-- The bytes of the file that a path leads to. -/
def image (tree : FileTree) (path : String) : Except SurveyFault ByteArray :=
  match tree.find path with
  | .ok (.file contents) => contents.mapError (.unopened path)
  | .ok (.directory _) => .error (.unmapped path .noDevice)
  | .error cause => .error (.unopened path cause)

/-- Surveys an ELF file of a tree. -/
def survey (tree : FileTree) (request : SurveyRequest) : Except SurveyFault Survey :=
  Survey.ofFiles (tree.image request.image) request.debugInfo
    (tree.findStackFiles request.searchRoot)

end FileTree

end StackSurvey
