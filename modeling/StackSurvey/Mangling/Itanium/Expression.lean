import StackSurvey.Mangling.Itanium.Grammar

namespace StackSurvey.Mangling.Itanium

open StackSurvey.Mangling.Itanium.Parser

def listed : List Node → List Node
  | [] => []
  | [node] => [node]
  | node :: nodes => node :: .text ", " :: listed nodes

/-- A node between two pieces of text. -/
def enclosed (opening : String) (node : Node) (closing : String) : Node :=
  .parts [.text opening, node, .text closing]

/-- Nodes between two pieces of text, with commas between them. -/
def enclosedList (opening : String) (nodes : List Node) (closing : String) : Node :=
  enclosed opening (.parts (listed nodes)) closing

variable (inner : Grammar)

/-- A value of a type as it is read: behind its type in parentheses, unless the value alone tells
the type. -/
def literalNode (type : Node) (value : List Char) : Node :=
  let isNegative := value.head? = some 'n'
  let sign := if isNegative then "-" else ""
  let magnitude : String := .ofList (if isNegative then value.tail else value)
  let cast := enclosed "(" type (")" ++ sign ++ magnitude)
  match type with
  | .builtin "std::nullptr_t" => .text "nullptr"
  | .builtin "bool" =>
    if value = ['0'] then .text "false"
    else if value = ['1'] then .text "true"
    else cast
  | .builtin "int" => .text (sign ++ magnitude)
  | .builtin "float" => .text ("(float)" ++ sign ++ "[" ++ magnitude ++ "]")
  | .builtin "double" => .text ("(double)" ++ sign ++ "[" ++ magnitude ++ "]")
  | _ => cast

/-- A value, or something that has a name of its own in the linker. -/
def literal : Parser Node := do
  word "L"
  choice
    [do
      let type ← inner.type
      let value ← run (· ≠ 'E')
      word "E"
      return literalNode type value,
    do
      word "_Z"
      let node ← inner.encoding
      word "E"
      return node]

/-- A part, and the arguments of a template if they come next. -/
def withArguments? (node : Node) : Parser Node := do
  match ← optional inner.templateArguments with
  | some arguments => return .template node arguments
  | none => return node

/-- An identifier, and the arguments of a template behind it. -/
def simpleTemplate : Parser Node := do withArguments? inner (.text (← identifier))

/-- A type whose members are named in an expression. -/
def dependentType : Parser Node :=
  choice
    [do rememberType (← withArguments? inner (← templateParameter)),
    do rememberType (← inner.decltype),
    do return (← reference).node]

/-- A name without its scopes. -/
def dependentLeaf : Parser Node :=
  choice
    [simpleTemplate inner,
    do
      word "on"
      withArguments? inner (.text (← operator operators)),
    do
      word "dn"
      return .parts [.text "~", ← choice [dependentType inner, simpleTemplate inner]]]

def dependentName : Parser Node :=
  choice
    [do
      word "gs"
      choice
        [do return .parts [.text "::", ← dependentLeaf inner],
        do
          word "sr"
          return .parts [.text "::", ← inScopes []]],
    dependentLeaf inner,
    do
      word "srN"
      inScopes [← dependentType inner],
    do
      word "sr"
      choice
        [do
          let type ← dependentType inner
          return .parts [type, .text "::", ← dependentLeaf inner],
        inScopes []]]
where
  /-- A name in the scopes of a type, if there is one, and of identifiers up to an end. -/
  inScopes (types : List Node) : Parser Node := do
    let scopes := types ++ (← oneOrMore (simpleTemplate inner))
    word "E"
    let leaf ← dependentLeaf inner
    return .parts (scopes.flatMap (fun scope => [scope, .text "::"]) ++ [leaf])

/-- A parameter of the function whose type the expression is part of. -/
def functionParameter : Parser Node := do
  word "f"
  if ← eat "L" then
    let _ ← natural
  word "p"
  let _ ← qualifiers
  if ← eat "T" then return .text "this"
  return .text s!"\x7bparm#{← ordinal}\x7d"

/-- Casts, by the letters that stand for them. -/
def casts : List (String × String) :=
  [("dc", "dynamic_cast"), ("sc", "static_cast"), ("cc", "const_cast"), ("rc", "reinterpret_cast")]

def typeQueries : List (String × String) := [("ti", "typeid"), ("st", "sizeof"), ("at", "alignof")]

def valueQueries : List (String × String) :=
  [("te", "typeid"), ("sz", "sizeof"), ("az", "alignof"), ("nx", "noexcept")]

/-- A name in the expression of a member. -/
def member : Parser Node := do
  withArguments? inner (← inner.simpleName none).node

def expressions (ending : String) : Parser (List Node) := do
  let nodes ← many inner.expression
  word ending
  return nodes

/-- The making of an object, after the letters that stand for it. -/
def newObject (words : String) : Parser Node := do
  let placement ← expressions inner "_"
  let type ← inner.type
  let initializer ← choice
    [do word "E"; return [],
    do word "pi"; return [enclosedList "(" (← expressions inner "E") ")"]]
  return .parts (enclosedList (words ++ " (") placement ") " :: type :: initializer)

/-- The making or the end of an object. -/
def allocation : Parser Node := do
  let scope := if ← eat "gs" then "::" else ""
  choice
    [do word "nw"; newObject inner (scope ++ "new"),
    do word "na"; newObject inner (scope ++ "new[]"),
    do word "dl"; return .parts [.text (scope ++ "delete "), ← inner.expression],
    do word "da"; return .parts [.text (scope ++ "delete[] "), ← inner.expression]]

/-- A cast in the notation of a function, or of a list. -/
def conversion : Parser Node :=
  choice
    [do
      word "cv"
      let type ← inner.type
      if ← eat "_" then
        return .parts [type, enclosedList "(" (← expressions inner "E") ")"]
      else
        return .parts [enclosed "(" type ")", enclosed "(" (← inner.expression) ")"],
    do
      word "tl"
      let type ← inner.type
      return .parts [type, enclosedList "\x7b" (← expressions inner "E") "\x7d"],
    do
      word "il"
      let node ← inner.expression
      word "E"
      return enclosed "\x7b" node "\x7d"]

/-- Packs of arguments. -/
def packExpression : Parser Node :=
  choice
    [do
      word "sZ"
      return enclosed "sizeof...(" (← choice [templateParameter, functionParameter]) ")",
    do
      word "sP"
      let arguments ← many inner.templateArgument
      word "E"
      return enclosedList "sizeof...(" arguments ")",
    do word "sp"; return .parts [← inner.expression, .text "..."]]

/-- A part of an object, told by its type and its place. -/
def subobject : Parser Node := do
  word "so"
  let type ← inner.type
  let object ← inner.expression
  let offset := (← optional integer).getD 0
  word "E"
  return .parts [object, .text ".<", type, .text s!" at offset {offset}>"]

/-- The symbols between an object and a member, by the letters that stand for them. -/
def memberSymbols : List (String × String) := [("dt", "."), ("pt", "->")]

def operation : Parser Node :=
  choice
    [do
      let symbol ← operator unaryOperators
      return .parts [.text symbol, ← inner.expression],
    do
      let symbol ← operator binaryOperators
      let left ← inner.expression
      let right ← inner.expression
      let node := .parts [enclosed "(" left (")" ++ symbol), enclosed "(" right ")"]
      return if symbol = ">" then enclosed "(" node ")" else node,
    do
      word "qu"
      let condition ← inner.expression
      let yes ← inner.expression
      return .parts [condition, .text " ? ", yes, .text " : ", ← inner.expression]]

def expression : Parser Node :=
  choice
    [do word "pp_"; return .parts [.text "++", ← inner.expression],
    do word "mm_"; return .parts [.text "--", ← inner.expression],
    do
      word "cl"
      let function ← inner.expression
      return .parts [enclosed "(" function ")", enclosedList "(" (← expressions inner "E") ")"],
    conversion inner,
    do
      let cast ← operator casts
      let type ← inner.type
      return .parts [enclosed (cast ++ "<") type ">(", ← inner.expression, .text ")"],
    do
      let query ← operator typeQueries
      return enclosed (query ++ " (") (← inner.type) ")",
    do
      let query ← operator valueQueries
      return enclosed (query ++ " (") (← inner.expression) ")",
    do
      let symbol ← operator memberSymbols
      let object ← inner.expression
      return .parts [object, .text symbol, ← member inner],
    do
      word "ds"
      let object ← inner.expression
      return .parts [object, .text ".*", ← inner.expression],
    packExpression inner,
    subobject inner,
    do word "tw"; return .parts [.text "throw ", ← inner.expression],
    do word "tr"; return .text "throw",
    allocation inner,
    templateParameter,
    functionParameter,
    inner.dependentName,
    inner.literal,
    operation inner]

/-- A type that is told by an expression. -/
def decltype : Parser Node := do
  word "D"
  choice [word "t", word "T"]
  let node ← inner.expression
  word "E"
  return enclosed "decltype (" node ")"

end StackSurvey.Mangling.Itanium
