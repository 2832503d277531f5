import StackSurvey.Listing
import StackSurvey.Survey
import StackSurvey.Text.Split

namespace StackSurvey

/-- What arguments ask for. -/
inductive Command where
  | survey (request : SurveyRequest) (options : ListingOptions)
  | help
  | version
deriving DecidableEq, Inhabited

/-- Why arguments ask for nothing. -/
inductive UsageFault where
  | unexpected (argument : String)
  | missingValue (option : String)
  | unneededValue (option value : String)
  | invalidSortKey (value : String)
  | repeated (option : String)
  | missingImage
deriving DecidableEq, Inhabited

def UsageFault.message : UsageFault → String
  | unexpected argument => s!"unexpected argument '{argument}' found"
  | missingValue option => s!"a value is required for '{option}' but none was supplied"
  | unneededValue option value =>
    s!"unexpected value '{value}' for '{option}' found; no more were expected"
  | invalidSortKey value => s!"invalid value '{value}' for '--sort <SORT>'"
  | repeated option => s!"the argument '{option}' cannot be used multiple times"
  | missingImage => "the following required arguments were not provided: <ELF>"

def SortKey.ofName? : String → Option SortKey
  | "address" => some address
  | "name" => some name
  | "stack" => some stack
  | _ => none

/-- The options with long names. -/
inductive LongOption where
  | stackDir
  | noDebugInfo
  | sort
  | all
  | verbose
  | help
  | version
deriving DecidableEq, Inhabited

namespace LongOption

def ofName? : String → Option LongOption
  | "stack-dir" => some stackDir
  | "no-debug-info" => some noDebugInfo
  | "sort" => some sort
  | "all" => some all
  | "verbose" => some verbose
  | "help" => some help
  | "version" => some version
  | _ => none

/-- True of options that have a value. -/
def takesValue : LongOption → Bool
  | stackDir | sort => true
  | _ => false

def usage : LongOption → String
  | stackDir => "--stack-dir <STACK_DIR>"
  | noDebugInfo => "--no-debug-info"
  | sort => "--sort <SORT>"
  | all => "--all"
  | verbose => "--verbose..."
  | help => "--help"
  | version => "--version"

end LongOption

/-- An argument by its shape. -/
inductive Argument where
  /-- Two dashes; all that follows is no option. -/
  | separator
  | long (name : String) (value : Option String)
  | short (letters : List Char)
  | plain (text : String)
deriving DecidableEq, Inhabited

def Argument.ofText (text : String) : Argument :=
  match text.toList with
  | ['-', '-'] => separator
  | '-' :: '-' :: body =>
    match Text.cutFirst? (· == '=') body with
    | some (name, value) => long (.ofList name) (some (.ofList value))
    | none => long (.ofList body) none
  | '-' :: c :: cs => short (c :: cs)
  | _ => plain text

/-- What the arguments read so far have set. -/
structure Settings where
  image : Option String := none
  stackDir : Option String := none
  noDebugInfo : Bool := false
  sortKey : Option SortKey := none
  all : Bool := false
deriving DecidableEq, Inhabited

namespace Settings

/-- The command once all arguments are read. -/
def command (s : Settings) : Except UsageFault Command :=
  match s.image with
  | some image =>
    .ok (.survey { image, stackDir := s.stackDir, debugInfo := !s.noDebugInfo }
      { sortKey := s.sortKey.getD .address, all := s.all })
  | none => .error .missingImage

def setImage (s : Settings) (path : String) : Except UsageFault Settings :=
  if s.image.isSome then .error (.unexpected path)
  else if path.isEmpty then .error (.missingValue "<ELF>")
  else .ok { s with image := some path }

/-- Sets the value of an option, which is done at most once. -/
def setValue (s : Settings) (option : LongOption) (value : String) : Except UsageFault Settings :=
  match option with
  | .stackDir =>
    if value.isEmpty then .error (.missingValue option.usage)
    else if s.stackDir.isSome then .error (.repeated option.usage)
    else .ok { s with stackDir := some value }
  | .sort =>
    match SortKey.ofName? value with
    | none => .error (.invalidSortKey value)
    | some key =>
      if s.sortKey.isSome then .error (.repeated option.usage)
      else .ok { s with sortKey := some key }
  | _ => .error (.unneededValue option.usage value)

/-- Sets an option without a value, at most once. How much is logged shows in no output, so that
this may be said again. -/
def setFlag (s : Settings) (option : LongOption) : Except UsageFault Settings :=
  match option with
  | .noDebugInfo =>
    if s.noDebugInfo then .error (.repeated option.usage) else .ok { s with noDebugInfo := true }
  | .all => if s.all then .error (.repeated option.usage) else .ok { s with all := true }
  | .verbose => .ok s
  | _ => .error (.missingValue option.usage)

/-- Reads arguments of which none is an option. -/
def readPlain (s : Settings) : List String → Except UsageFault Command
  | [] => s.command
  | path :: rest => do (← s.setImage path).readPlain rest

end Settings

/-- What a run of short options asks for, if it is not just more logging. -/
def Command.ofLetters? : List Char → Except UsageFault (Option Command)
  | [] => .ok none
  | 'v' :: letters => ofLetters? letters
  | 'h' :: _ => .ok (some help)
  | 'V' :: _ => .ok (some version)
  | c :: _ => .error (.unexpected s!"-{c}")

/-- Reads arguments. The value of an option may be the next argument if that has no shape of its
own. -/
def Settings.read (s : Settings) : List String → Except UsageFault Command
  | [] => s.command
  | argument :: rest =>
    match Argument.ofText argument with
    | .separator => s.readPlain rest
    | .plain path => do (← s.setImage path).read rest
    | .short letters => do
      match ← Command.ofLetters? letters with
      | some command => return command
      | none => s.read rest
    | .long name value =>
      match LongOption.ofName? name, value, rest with
      | none, _, _ => .error (.unexpected s!"--{name}")
      | some option, some value, rest => do (← s.setValue option value).read rest
      | some .help, none, _ => .ok .help
      | some .version, none, _ => .ok .version
      | some option, none, rest =>
        if option.takesValue then
          match rest with
          | [] => .error (.missingValue option.usage)
          | value :: rest =>
            match Argument.ofText value with
            | .plain value => do (← s.setValue option value).read rest
            | _ => .error (.missingValue option.usage)
        else do (← s.setFlag option).read rest

def Command.parse (arguments : List String) : Except UsageFault Command :=
  ({} : Settings).read arguments

end StackSurvey
