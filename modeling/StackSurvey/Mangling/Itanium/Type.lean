import StackSurvey.Mangling.Itanium.Expression

namespace StackSurvey.Mangling.Itanium

open StackSurvey.Mangling.Itanium.Parser

variable (inner : Grammar)

/-- A name as the member of a scope. -/
def Name.within (member : Name) : Option Name → Name
  | none => member
  | some scope =>
    { member with node := .member scope.node member.node, isNested := true }

def Name.withArguments (name : Name) (arguments : List Node) : Name :=
  { name with node := .template name.node arguments, arguments, isNested := true }

/-- An operator, among them the conversions to a type. -/
def operatorName : Parser Name :=
  choice
    [do return { node := .text ("operator" ++ (← operator operators)) },
    do
      word "cv"
      let outer := (← get).inConversion
      modify fun s => { s with inConversion := true }
      let type ← inner.type
      modify fun s => { s with inConversion := outer }
      return { node := .parts [.text "operator ", type], isResultless := true },
    do
      word "li"
      return { node := .text ("operator" ++ (← identifier) ++ "::operator \"\"") },
    do
      word "v"
      let arity ← take 1
      unless arity.all Char.isDigit do mismatch
      return { node := .text ("operator" ++ (← identifier) ++ "::operator " ++ .ofList arity) }]

/-- A constructor or destructor of a scope. Inherited constructors are called as in the class that
they come from. -/
def structor (scope : Option Name) : Parser Name := do
  let some leaf := scope.bind (·.leaf) | mismatch
  if ← eat "C" then
    let isInherited ← eat "I"
    choice (["1", "2", "3", "4"].map word)
    let node ← if isInherited then inner.type else pure leaf
    return { node, isResultless := true }
  else
    word "D"
    choice (["0", "1", "2", "4"].map word)
    return { node := .parts [.text "~", leaf], isResultless := true }

def sourceName : Parser Name := do
  let node := .text (← identifier)
  return { node, leaf := some node }

def closure : Parser Name := do
  word "Ul"
  let parameters ← choice [do word "v"; return [], oneOrMore inner.type]
  word "E"
  let node := .lambda parameters (← ordinal)
  return { node, leaf := some node }

/-- The name of a type without a name. -/
def unnamedType : Parser Name := do
  word "Ut"
  let number ← optional natural
  word "_"
  let node := .text s!"\x7bunnamed type#{(number.map (· + 1)).getD 1}\x7d"
  return { node, leaf := some node }

/-- A name without a scope, and the tags behind it. -/
def simpleName (scope : Option Name) : Parser Name := do
  let name ← choice
    [inner.operatorName,
    structor inner scope,
    do
      word "L"
      let name ← sourceName
      let _ ← optional discriminator
      return name,
    sourceName,
    inner.closure,
    unnamedType]
  let tags ← many do
    word "B"
    return .text ("[abi:" ++ (← identifier) ++ "]")
  return if tags.isEmpty then name else { name with node := .parts (name.node :: tags) }

/-- Remembers a scope, unless the name in it ends here. -/
def rememberScope (scope : Name) : Parser Name := do
  if (← peek) = some 'E' then return scope else remember scope

/-- One more step into nested scopes; nothing at their end. -/
def scopeStep (scope : Option Name) : Parser (Option (Option Name)) := do
  match ← peek, scope with
  | some 'S', _ => return some (some (← reference))
  | some 'T', _ =>
    let node ← templateParameter
    return some (some (← rememberScope { node }))
  | some 'I', some scope =>
    let arguments ← inner.templateArguments
    return some (some (← rememberScope (scope.withArguments arguments)))
  | some 'D', scope =>
    let decltype := do return { node := ← inner.decltype }
    let member := do return (← inner.simpleName scope).within scope
    return some (some (← rememberScope (← choice [decltype, member])))
  | some c, _ =>
    match ← optional (inner.simpleName scope) with
    | none => return none
    | some name =>
      if c.isDigit && (← peek) = some 'M' then
        let scope ← remember (name.within scope)
        word "M"
        return some (some scope)
      else
        return some (some (← rememberScope (name.within scope)))
  | none, _ => return none

/-- A name inside the scopes before it. -/
def scopedName : Parser Name := do
  match ← iterate (scopeStep inner) none with
  | some name => return name
  | none => mismatch

/-- A name in a scope, with the qualifiers of a member function. -/
def nestedName : Parser Name := do
  word "N"
  let q ← qualifiers
  let sign ← referenceSign
  let name ← inner.scopedName
  word "E"
  unless name.isNested do mismatch
  return { name with node := .nested name.node { q with reference := sign } }

/-- A name in the global or the standard scope. -/
def unscopedName : Parser Name :=
  choice
    [do
      word "St"
      let name ← inner.simpleName none
      return { name with node := .parts [.text "std::", name.node] },
    inner.simpleName none]

def localName : Parser Name := do
  word "Z"
  let function ← inner.encoding
  word "E"
  let within (name : Name) : Name :=
    { name with node := .member function name.node, isNested := false, isResultless := false }
  choice
    [do
      word "s"
      let _ ← optional discriminator
      return within { node := .text "string literal" },
    do
      word "d"
      let _ ← optional natural
      word "_"
      return within (← inner.name),
    do
      let name ← inner.name
      let _ ← optional discriminator
      return within name]

def name : Parser Name :=
  choice
    [inner.nestedName,
    do
      let name ← inner.unscopedName
      if (← peek) = some 'I' then
        let name ← remember name
        return name.withArguments (← inner.templateArguments)
      else
        return name,
    do
      let name ← reference
      return name.withArguments (← inner.templateArguments),
    inner.localName]

/-- The name of a class, union or enumeration. -/
def classType : Parser Name :=
  choice
    [inner.name,
    do
      word "T"
      let keyword ← choice
        [do word "s"; return "class ", do word "u"; return "union ", do word "e"; return "enum "]
      let name ← inner.name
      return { name with node := .parts [.text keyword, name.node] }]

def signature : Parser (List Node) := oneOrMore inner.type

/-- The exceptions of a function: it throws none, or none if an expression holds. -/
def exceptionSpecification : Parser Node :=
  choice
    [do word "Do"; return .text "noexcept",
    do
      word "DO"
      let condition ← inner.expression
      word "E"
      return enclosed "noexcept(" condition ")"]

def functionType : Parser Node := do
  let q ← qualifiers
  let exceptions ← optional (exceptionSpecification inner)
  let _ ← eat "Dx"
  word "F"
  let _ ← eat "Y"
  match ← inner.signature with
  | [] => mismatch
  | result :: parameters =>
    let sign ← referenceSign
    word "E"
    return .functionType result (Node.parametersOf parameters) { q with reference := sign }
      exceptions

/-- The type of an array or vector. -/
def arrayType : Parser Node :=
  choice
    [do
      word "Dv"
      let size ← choice [number, do word "_"; inner.expression]
      word "_"
      return .vector size (← inner.type),
    do
      word "A"
      let bound ← choice [number, inner.expression, pure (.text "")]
      word "_"
      return .array bound (← inner.type)]
where
  /-- A number as it is read. -/
  number : Parser Node := do return .text s!"{← natural}"

/-- A template parameter as a type; with template arguments behind it, it is the template. -/
def parameterType : Parser Node := do
  let parameter ← templateParameter
  if (← peek) ≠ some 'I' then
    rememberType parameter
  else
    let isConversion := (← get).inConversion
    let next ← fun s =>
      match (do let _ ← inner.templateArguments; peek : Parser (Option Char)) s with
      | .ok (next, _) => .ok (some next, s)
      | .error .mismatch => .ok (none, s)
      | .error .tooDeep => .error .tooDeep
    if isConversion && next.any (· ≠ some 'I') then
      rememberType parameter
    else
      let template ← rememberType parameter
      rememberType (.template template (← inner.templateArguments))

/-- A type that a letter makes from another type. -/
def derivedType : Parser Node :=
  choice
    [do word "P"; rememberType (.pointer (← inner.type)),
    do word "R"; rememberType (.lvalue (← inner.type)),
    do word "O"; rememberType (.rvalue (← inner.type)),
    do word "C"; rememberType (.parts [← inner.type, .text " complex"]),
    do word "G"; rememberType (.parts [← inner.type, .text " imaginary"]),
    do
      word "U"
      let word ← identifier
      let arguments ← optional inner.templateArguments
      let type ← inner.type
      let qualifier := match arguments with
        | some arguments => .template (.text word) arguments
        | none => .text word
      rememberType (.parts [type, .text " ", qualifier]),
    do word "Dp"; rememberType (.expansion (← inner.type))]

/-- A type. All but the builtin ones may be referred to. -/
def type : Parser Node :=
  choice
    [builtin,
    do
      let name ← inner.classType
      return (← remember { name with node := .named name.node, isNested := false }).node,
    do
      let name ← reference
      if (← peek) = some 'I' then mismatch
      return name.node,
    do rememberType (← inner.functionType),
    do rememberType (← arrayType inner),
    do
      word "M"
      let owner ← inner.type
      rememberType (.memberPointer owner (← inner.type)),
    parameterType inner,
    do rememberType (← inner.decltype),
    do
      let q ← qualifiers
      if q = {} then mismatch
      rememberType (.qualified q (← inner.type)),
    derivedType inner]

/-- A template argument; several of them may stand for one parameter. -/
def templateArgument : Parser Node :=
  choice
    [do
      word "X"
      let value ← inner.expression
      word "E"
      return value,
    inner.literal,
    inner.type,
    do
      choice [word "J", word "I"]
      let items ← many inner.templateArgument
      word "E"
      return .pack items]

def templateArguments : Parser (List Node) := do
  word "I"
  let arguments ← many inner.templateArgument
  word "E"
  return arguments

end StackSurvey.Mangling.Itanium
