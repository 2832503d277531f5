import StackSurvey.Path.Basic

namespace StackSurvey

/-- Why the system does not give what a path names. -/
inductive SystemFault where
  | notFound
  | notDirectory
  /-- A directory has no contents. -/
  | noDevice
  | nameTooLong
  | zeroInPath
  | other (code : Nat) (text : String)
deriving DecidableEq, Inhabited

namespace SystemFault

/-- A message of the system with its number. -/
def numbered (code : Nat) (text : String) : String := s!"{text} (os error {code})"

def message : SystemFault → String
  | notFound => numbered 2 "No such file or directory"
  | notDirectory => numbered 20 "Not a directory"
  | noDevice => numbered 19 "No such device"
  | nameTooLong => numbered 36 "File name too long"
  | zeroInPath => "file name contained an unexpected NUL byte"
  | other code text => numbered code text

end SystemFault

/-- A file with its contents or the reason why they cannot be read, or a directory with the names
in it. -/
inductive FileTree where
  | file (contents : Except SystemFault ByteArray)
  | directory (entries : List (String × FileTree))
deriving Inhabited

namespace FileTree

/-- A directory with nothing in it. -/
def empty : FileTree := directory []

/-- What is in a directory; nothing is in a file. -/
def entries : FileTree → List (String × FileTree)
  | file _ => []
  | directory entries => entries

/-- Entries with `tree` under a name. -/
def setEntry (name : String) (tree : FileTree) : List (String × FileTree) → List (String × FileTree)
  | [] => [(name, tree)]
  | entry :: rest =>
    if entry.1 = name then (name, tree) :: rest else entry :: setEntry name tree rest

/-- Changes what is where names lead, from directory to directory. Those that are missing are
made. -/
def update (change : FileTree → FileTree) : List String → FileTree → FileTree
  | [], here => change here
  | name :: names, here =>
    directory (setEntry name (update change names ((here.entries.lookup name).getD empty))
      here.entries)

def names (path : String) : List String :=
  (Path.components path).filterMap fun
    | .name name => some name
    | _ => none

/-- A tree with a file at a path, and with the directories above it. -/
def addFile (tree : FileTree) (path : String) (contents : ByteArray) : FileTree :=
  tree.update (fun _ => file (.ok contents)) (names path)

/-- A tree with a directory at a path, and with those above it. -/
def addDirectory (tree : FileTree) (path : String) : FileTree := tree.update id (names path)

/-- Longest name of an entry, in bytes. -/
def maxNameSize : Nat := 255

/-- Paths are shorter than this, in bytes. -/
def pathSizeLimit : Nat := 4096

/-- What the parts of a path lead to from a place, where `above` holds the directories on the way
to it, the closest first. -/
def follow : List (List Char) → FileTree → List FileTree → Except SystemFault FileTree
  | [], here, _ => .ok here
  | _ :: _, file _, _ => .error .notDirectory
  | part :: parts, directory entries, above =>
    match Path.ofPart? part with
    | some (.name name) =>
      if maxNameSize < name.utf8ByteSize then .error .nameTooLong
      else match entries.lookup name with
        | some next => follow parts next (directory entries :: above)
        | none => .error .notFound
    | some .parent =>
      match above with
      | up :: above => follow parts up above
      | [] => .error .notFound
    | _ => follow parts (directory entries) above

/-- What a path leads to. Nothing lies outside of a tree, so that absolute paths lead nowhere. -/
def find (tree : FileTree) (path : String) : Except SystemFault FileTree :=
  if '\x00' ∈ path.toList then .error .zeroInPath
  else if pathSizeLimit ≤ path.utf8ByteSize then .error .nameTooLong
  else if path.isEmpty ∨ Path.isAbsolute path then .error .notFound
  else follow (Path.parts path.toList) tree []

end FileTree

end StackSurvey
