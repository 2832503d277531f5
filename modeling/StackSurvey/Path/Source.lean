import StackSurvey.Path.Basic

namespace StackSurvey.Path

/-- True of a source path that is complete by itself. -/
def isComplete (path : String) : Bool :=
  match path.toList with
  | '/' :: _ => true
  | '\\' :: _ => true
  | drive :: ':' :: c :: _ => drive.toNat < 128 && (c == '/' || c == '\\')
  | _ => false

/-- A file name as seen from a directory. -/
def joinSource (dir name : String) : String :=
  if dir.isEmpty ∨ isComplete name then name
  else if name.isEmpty then dir
  else join dir name

def withSlashes (path : String) : String := path.map fun c => if c = '\\' then '/' else c

/-- True if the last components of `path` are all components of `tail`. -/
def endsWith (path tail : String) : Bool :=
  let path := components (withSlashes path)
  let all := components (withSlashes tail)
  let wanted := all.filter (· ≠ .current)
  if wanted = [] ∨ path.length < wanted.length then false
  else if wanted.head? = some .root then path = wanted
  else path.drop (path.length - wanted.length) = wanted

end StackSurvey.Path
