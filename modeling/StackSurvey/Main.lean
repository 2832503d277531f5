import StackSurvey.CommandLine.Outcome

namespace StackSurvey

/-- The number of an error of the system, which may come with a sign. -/
def errorNumber (code : UInt32) : Nat := (min code (-code)).toNat

def SystemFault.ofError : IO.Error → SystemFault
  | .noFileOrDirectory .. => .notFound
  | .inappropriateType _ code text =>
    if errorNumber code = 20 then .notDirectory else .other (errorNumber code) text
  | .permissionDenied _ code _ => .other (errorNumber code) "Permission denied"
  | error => .other 0 (toString error)

/-- Reads the bytes of an ELF file. -/
def readImage (path : String) : IO (Except SurveyFault ByteArray) := do
  match ← (IO.FS.readBinFile path).toBaseIO with
  | .ok bytes => return .ok bytes
  | .error error =>
    match SystemFault.ofError error with
    | .other 21 _ => return .error (.unmapped path .noDevice)
    | cause => return .error (.unopened path cause)

mutual

/-- Reads a directory with the stack files in and below it. -/
partial def readDirectory (place : IO.FS.DirEntry) : IO FileTree := do
  let children ← place.path.readDir
  return .directory (← children.toList.filterMapM readEntry)

/-- Reads an entry of a directory, if it is a directory or a stack file. -/
partial def readEntry (place : IO.FS.DirEntry) : IO (Option (String × FileTree)) := do
  let name := place.fileName
  match (← place.path.symlinkMetadata).type with
  | .dir => return some (name, ← readDirectory place)
  | .file =>
    if FoundFile.isReportName name || FoundFile.isDumpName name then
      let contents ← (IO.FS.readBinFile place.path).toBaseIO
      return some (name, .file (contents.mapError SystemFault.ofError))
    else
      return none
  | _ => return none

end

/-- Reads the stack files in and below a directory. -/
def readStackFiles (path : String) : IO (Except SearchFault (List StackFiles)) := do
  match ← (readDirectory { root := ← IO.currentDir, fileName := path }).toBaseIO with
  | .ok tree => return tree.stackFiles path
  | .error error => return .error ⟨path, .ofError error⟩

def readSurvey (request : SurveyRequest) : IO (Except SurveyFault Survey) := do
  let image ← readImage request.image
  return Survey.ofFiles image request.debugInfo (← readStackFiles request.searchRoot)

end StackSurvey

open StackSurvey in
def main (arguments : List String) : IO UInt32 := do
  let outcome ← Outcome.ofArguments readSurvey arguments
  (← IO.getStdout).putStr outcome.output
  (← IO.getStderr).putStr outcome.errors
  return outcome.exitCode.toUInt32
