import StackSurvey.Mangling.Scheme
import StackSurvey.Path.Source
import StackSurvey.SymbolTable
import StackSurvey.Text.Number
import Std.Data.TreeMap
import Std.Data.TreeSet

namespace StackSurvey

/-- What a report says of a function. -/
structure StackUsage where
  stack : Nat := 0
  qualifier : String := ""
  path : String := ""
  line : Nat := 0
  column : Nat := 0
  /-- Further reports on the same function. -/
  duplicates : Nat := 0
  /-- The symbols that call graphs match with the function. -/
  mangledNames : Std.TreeSet String := ∅
deriving Inhabited

/-- Usage by function name, as the compiler printed it. -/
abbrev StackReport : Type := Std.TreeMap String StackUsage

namespace StackUsage

/-- The directory and the rest of a location: everything up to the last separator, and what follows
it. -/
def cutDirectory (location : List Char) : List Char × List Char :=
  let rest := (location.reverse.takeWhile fun c => c ≠ '/' && c ≠ '\\').reverse
  (location.take (location.length - rest.length), rest)

/-- The function and its usage that a line reports: `path:line:column:function`, the size and a
qualifier, separated by tabs. Only static frames count. -/
def ofLine? (line : List Char) : Option (String × StackUsage) := do
  let fields := Text.splitAt (· == '\t') line
  let location ← fields[0]?
  let stack ← Text.word? (Text.trim (← fields[1]?))
  let qualifier := String.ofList (Text.trim (fields[2]?.getD []))
  guard (qualifier = "static")
  let (directory, rest) := cutDirectory location
  let (file, rest) ← Text.cutFirst? (· == ':') rest
  let (row, rest) ← Text.cutFirst? (· == ':') rest
  let row ← Text.word? row
  let (column, name) ← Text.cutFirst? (· == ':') rest
  let column ← Text.word? column
  guard (name ≠ [])
  return (.ofList name,
    { stack, qualifier, path := .ofList (directory ++ file), line := row, column })

/-- One more report on a function that has one: the larger frame is kept, of equal ones the
first. -/
def again (old new : StackUsage) : StackUsage :=
  let kept := if old.stack < new.stack then new else old
  { kept with duplicates := old.duplicates + 1 }

/-- The usage that two files report for a function; `prefers` tells whether a differing second one
replaces the first. Both contribute their symbols. -/
def combine (prefers : StackUsage → StackUsage → Bool) (old new : StackUsage) : StackUsage :=
  let kept := if old.stack ≠ new.stack ∧ prefers old new then new else old
  { kept with
    duplicates := old.duplicates + 1
    mangledNames := old.mangledNames.insertMany new.mangledNames.toList }

end StackUsage

namespace StackReport

def addLine (report : StackReport) (line : List Char) : StackReport :=
  match StackUsage.ofLine? line with
  | some (name, usage) =>
    report.alter name fun
      | some old => some (old.again usage)
      | none => some usage
  | none => report

def parse (text : String) : StackReport := (Text.lines text.toList).foldl addLine ∅

/-- True if some symbol that is shown under a name is declared in a source path. -/
def declaredIn (symbols : SymbolTable) (name path : String) : Bool :=
  symbols.symbols.any fun s =>
    s.displayName == name && s.notes.source.any fun source => Path.endsWith source.path path

/-- Whether a usage replaces an earlier one of the same function. With debug information it does
where it alone agrees with the declaration, else where it is larger. -/
def prefers (symbols : SymbolTable) (hasDebugInfo : Bool) (name : String)
    (old new : StackUsage) : Bool :=
  if hasDebugInfo then
    !declaredIn symbols name old.path && declaredIn symbols name new.path
  else
    old.stack < new.stack

/-- The report on two lots of files. -/
def combine (symbols : SymbolTable) (hasDebugInfo : Bool) (merged report : StackReport) :
    StackReport :=
  report.foldl
    (fun merged name usage =>
      merged.alter name fun
        | some old => some (old.combine (prefers symbols hasDebugInfo name) usage)
        | none => some usage)
    merged

def merge (reports : List StackReport) (symbols : SymbolTable) (hasDebugInfo : Bool) :
    StackReport :=
  reports.foldl (combine symbols hasDebugInfo) ∅

/-- Notes with the frame size of a function and, for a mangled symbol, its name. -/
def note (function mangled : String) (usage : StackUsage) (notes : Annotation) : Annotation :=
  let notes :=
    if Mangling.isMangled mangled then
      { notes with demangled := some function, nameSource := .stackReport }
    else notes
  if 0 < usage.stack then { notes with localStack := some usage.stack } else notes

/-- Notes a function's usage on the symbols with one of its mangled names; counts them. -/
def applyTo (function : String) (usage : StackUsage) (t : SymbolTable) (mangled : String) :
    SymbolTable × Nat :=
  let indices := t.indicesByName mangled
  (indices.foldl
    (fun t index => t.annotate index fun s => note function mangled usage s.notes) t,
    indices.length)

/-- Notes every usage on the symbols that call graphs match with its function; counts them. -/
def apply (report : StackReport) (symbols : SymbolTable) : SymbolTable × Nat :=
  report.foldl
    (fun state function usage =>
      usage.mangledNames.foldl
        (fun (t, updated) mangled =>
          let (t, count) := applyTo function usage t mangled
          (t, updated + count))
        state)
    (symbols, 0)

end StackReport

end StackSurvey
