import StackSurvey.Text.Split

namespace StackSurvey.Path

/-- A step of a path. -/
inductive Component where
  | root
  /-- A dot that the path begins with; others stand for nothing. -/
  | current
  | parent
  | name (name : String)
deriving DecidableEq, Inhabited

/-- The place of a component's kind in the order of paths. -/
def Component.rank : Component → Nat
  | root => 0
  | current => 1
  | parent => 2
  | name _ => 3

/-- The text of a component, which orders names. -/
def Component.text : Component → String
  | root => "/"
  | current => "."
  | parent => ".."
  | name s => s

/-- The order of components: by kind, names by their text. -/
def Component.compare (a b : Component) : Ordering :=
  (Ord.compare a.rank b.rank).then (Ord.compare a.text b.text)

/-- The component that a part between slashes stands for. -/
def ofPart? (part : List Char) : Option Component :=
  if part = [] ∨ part = ['.'] then none
  else if part = ['.', '.'] then some .parent
  else some (.name (.ofList part))

/-- The parts between the slashes of a path. -/
def parts (path : List Char) : List (List Char) := Text.splitAt (· == '/') path

def components (path : String) : List Component :=
  match path.toList with
  | '/' :: rest => .root :: (parts rest).filterMap ofPart?
  | text =>
    let body := (parts text).filterMap ofPart?
    if (parts text).head? = some ['.'] then .current :: body else body

/-- True of paths that do not depend on the current directory. -/
def isAbsolute (path : String) : Bool := path.toList.head? = some '/'

/-- The order of paths: component by component. -/
def compare (a b : String) : Ordering := go (components a) (components b)
where
  /-- The order of lists of components. -/
  go : List Component → List Component → Ordering
    | [], [] => .eq
    | [], _ :: _ => .lt
    | _ :: _, [] => .gt
    | a :: as, b :: bs => (a.compare b).then (go as bs)

/-- `name` in the directory `dir`, where `name` is relative. -/
def join (dir name : String) : String :=
  if dir.isEmpty ∨ dir.toList.getLast? = some '/' then dir ++ name else dir ++ "/" ++ name

def ofParts (parts : List (List Char)) : List Char := List.intercalate ['/'] parts

/-- `parts` without the last ones that stand for nothing. The first part of a relative path counts
even if it is a dot. -/
def dropIdle (rooted : Bool) (parts : List (List Char)) : List (List Char) :=
  match parts with
  | [] => []
  | first :: rest =>
    let rest := (rest.reverse.dropWhile fun part => part = [] ∨ part = ['.']).reverse
    if rest = [] ∧ (first = [] ∨ rooted ∧ first = ['.']) then [] else first :: rest

def parent? (path : String) : Option String :=
  let (rooted, body) := match path.toList with
    | '/' :: rest => (true, rest)
    | text => (false, text)
  match dropIdle rooted (parts body) with
  | [] => none
  | kept =>
    let up := ofParts (dropIdle rooted kept.dropLast)
    some (.ofList (if rooted then '/' :: up else up))

end StackSurvey.Path
