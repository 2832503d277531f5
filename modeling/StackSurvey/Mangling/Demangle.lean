import StackSurvey.Mangling.Hashed
import StackSurvey.Mangling.Itanium.Encoding
import StackSurvey.Mangling.Scheme
import StackSurvey.Mangling.V0.Printer

namespace StackSurvey.Mangling

/-- The mangled name, and what tools have added to it: a version or the mark of a clone. -/
def splitSuffix : List Char → List Char × List Char
  | [] => ([], [])
  | '.' :: rest => ([], '.' :: rest)
  | '@' :: '@' :: rest => ([], '@' :: '@' :: rest)
  | c :: rest => ((splitSuffix rest).map (c :: ·) id)

/-- The readable name that a mangled name stands for. The suffix is kept as it is. Names of the
Itanium scheme that do not follow it may be hashed paths. -/
def demangle? (name : String) : Option String :=
  if isMangled name then
    let (base, suffix) := splitSuffix name.toList
    match base with
    | '_' :: 'R' :: _ => (V0.demangle? (.ofList base)).map (· ++ .ofList suffix)
    | '_' :: '_' :: 'Z' :: rest =>
      (Itanium.demangle? (.ofList ('_' :: 'Z' :: rest))).map (· ++ .ofList suffix)
        <|> Hashed.demangle? name
    | _ =>
      (Itanium.demangle? (.ofList base)).map (· ++ .ofList suffix) <|> Hashed.demangle? name
  else
    none

end StackSurvey.Mangling
