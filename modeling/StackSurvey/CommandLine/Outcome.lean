import StackSurvey.CommandLine.Command

namespace StackSurvey

/-- The end of a run of the program. -/
structure Outcome where
  /-- It is 1 if a file cannot be surveyed, and 2 if the arguments are not understood. -/
  exitCode : UInt8
  output : String := ""
  errors : String := ""
deriving DecidableEq, Inhabited

namespace Outcome

def helpText : String := Listing.ofLines
  ["Source attribution and worst-case stack usage for ELF files",
    "",
    "Usage: dwarfstack [OPTIONS] <ELF>",
    "",
    "Arguments:",
    "  <ELF>  ELF file to analyse",
    "",
    "Options:",
    "      --stack-dir <STACK_DIR>  Directory searched for `.su` and `.cgraph` files. Defaults to the",
    "                               ELF's directory",
    "      --no-debug-info          Skip DWARF source attribution",
    "      --sort <SORT>            [default: address] [possible values: address, name, stack]",
    "      --all                    Also list symbols without any source or stack information",
    "  -v, --verbose...             More log output; repeat for more",
    "  -h, --help                   Print help",
    "  -V, --version                Print version"]

def versionText : String := "dwarfstack 0.1.0\n"

/-- What is told of arguments that are not understood. -/
def usageText (fault : UsageFault) : String := Listing.ofLines
  [s!"error: {fault.message}", "", "Usage: dwarfstack [OPTIONS] <ELF>", "",
    "For more information, try '--help'."]

/-- What is told of a file that cannot be surveyed. -/
def failureText (fault : SurveyFault) : String :=
  match fault.cause? with
  | some cause => Listing.ofLines [s!"Error: {fault.message}", "", "Caused by:", s!"    {cause}"]
  | none => Listing.ofLines [s!"Error: {fault.message}"]

/-- Remarks on what a survey lacks. Without stack usage there is no use for call graphs. -/
def remarks (survey : Survey) : List String :=
  (if survey.hasDebugInfo then [] else ["note: no debug information used"])
    ++ if !survey.hasStackUsage then ["note: no stack usage files found"]
      else if !survey.hasCallGraph then ["note: no call graph files found"]
      else []

/-- The listing of a survey, or why there is none. -/
def ofSurvey (options : ListingOptions) : Except SurveyFault Survey → Outcome
  | .ok survey =>
    { exitCode := 0
      output := Listing.text options survey.symbols.symbols.toList
      errors := Listing.ofLines (remarks survey) }
  | .error fault => { exitCode := 1, errors := failureText fault }

/-- Follows arguments, where `survey` makes the surveys. -/
def ofArguments {m : Type → Type} [Monad m]
    (survey : SurveyRequest → m (Except SurveyFault Survey)) (arguments : List String) :
    m Outcome := do
  match Command.parse arguments with
  | .ok (.survey request options) => return ofSurvey options (← survey request)
  | .ok .help => return { exitCode := 0, output := helpText }
  | .ok .version => return { exitCode := 0, output := versionText }
  | .error fault => return { exitCode := 2, errors := usageText fault }

end Outcome

/-- Runs the program in the directory at the top of a tree. -/
def FileTree.run (tree : FileTree) (arguments : List String) : Outcome :=
  Id.run (Outcome.ofArguments (fun request => pure (tree.survey request)) arguments)

end StackSurvey
