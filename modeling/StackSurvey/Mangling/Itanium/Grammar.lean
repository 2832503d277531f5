import StackSurvey.Mangling.Itanium.Token

namespace StackSurvey.Mangling.Itanium

/-- Parsers of the parts of a name, at some depth. -/
structure Grammar where
  encoding : Parser Node
  name : Parser Name
  nestedName : Parser Name
  scopedName : Parser Name
  unscopedName : Parser Name
  localName : Parser Name
  /-- A name without a scope; the scope before it tells what constructors are called. -/
  simpleName : Option Name → Parser Name
  operatorName : Parser Name
  closure : Parser Name
  type : Parser Node
  classType : Parser Name
  signature : Parser (List Node)
  functionType : Parser Node
  decltype : Parser Node
  templateArguments : Parser (List Node)
  templateArgument : Parser Node
  literal : Parser Node
  expression : Parser Node
  /-- A name in an expression, which may depend on template parameters. -/
  dependentName : Parser Node
  specialName : Parser Node

/-- The parsers at a depth that nothing may be found at. -/
def Grammar.refusing : Grammar where
  encoding := throw .tooDeep
  name := throw .tooDeep
  nestedName := throw .tooDeep
  scopedName := throw .tooDeep
  unscopedName := throw .tooDeep
  localName := throw .tooDeep
  simpleName _ := throw .tooDeep
  operatorName := throw .tooDeep
  closure := throw .tooDeep
  type := throw .tooDeep
  classType := throw .tooDeep
  signature := throw .tooDeep
  functionType := throw .tooDeep
  decltype := throw .tooDeep
  templateArguments := throw .tooDeep
  templateArgument := throw .tooDeep
  literal := throw .tooDeep
  expression := throw .tooDeep
  dependentName := throw .tooDeep
  specialName := throw .tooDeep

end StackSurvey.Mangling.Itanium
