import StackSurvey.Mangling.Itanium.Type
import StackSurvey.Mangling.Itanium.Writer

namespace StackSurvey.Mangling.Itanium

open StackSurvey.Mangling.Itanium.Parser

variable (inner : Grammar)

/-- A function with its signature. Those of templates begin with the result, which constructors and
conversions do not show. -/
def functionNode (name : Name) (types : List Node) : Node :=
  match name.arguments, types with
  | some arguments, result :: parameters =>
    let result := if name.isResultless then none else some result
    .function arguments result name.node (Node.parametersOf parameters)
  | _, _ => .function none none name.node (Node.parametersOf types)

def encoding : Parser Node := do
  match ← optional inner.name with
  | some name =>
    match ← optional inner.signature with
    | some types => return functionNode name types
    | none => return .entity name.node
  | none => return .entity (← inner.specialName)

/-- The name of a resource, in which a dollar sign tells what stands for some other characters. -/
def resourceName? : List Char → Option (List Char)
  | [] => some []
  | '$' :: 'S' :: rest => ('/' :: ·) <$> resourceName? rest
  | '$' :: '_' :: rest => ('.' :: ·) <$> resourceName? rest
  | '$' :: '$' :: rest => ('$' :: ·) <$> resourceName? rest
  | '$' :: _ => none
  | c :: rest => (c :: ·) <$> resourceName? rest

/-- Things that the compiler adds: tables, guards and thunks. -/
def specialName : Parser Node :=
  choice
    [do word "TV"; within "vtable(" inner.type,
    do word "TT"; within "vtt(" inner.type,
    do word "TI"; about "typeinfo for " inner.type,
    do word "TS"; about "typeinfo name for " inner.type,
    do word "TF"; about "typeinfo fn for " inner.type,
    do word "TH"; about "TLS init function for " nameNode,
    do word "TW"; about "TLS wrapper function for " nameNode,
    do word "GV"; about "guard variable for " nameNode,
    do
      word "GR"
      let node ← nameNode
      let number ← sequenceNumber
      return .parts [.text s!"reference temporary #{number} for ", node],
    do
      word "Gr"
      match ← take (← natural) with
      | '_' :: chars =>
        match resourceName? chars with
        | some resource => return .text ("java resource " ++ .ofList resource)
        | none => mismatch
      | _ => mismatch,
    do word "GTt"; about "transaction clone for " inner.encoding,
    do word "GTn"; about "non-transaction clone for " inner.encoding,
    do
      word "TC"
      let derived ← inner.type
      let _ ← natural
      word "_"
      let base ← inner.type
      return .parts [.text "construction vtable for ", derived, .text "-in-", base],
    do
      word "Tc"
      let receiver ← callOffset
      let result ← callOffset
      thunk s!"{receiver}, {result}",
    do
      word "T"
      thunk (← callOffset)]
where
  /-- Words and what they are about. -/
  about (words : String) (p : Parser Node) : Parser Node := do
    return .parts [.text words, ← p]
  /-- A name that is not the name of a function. -/
  nameNode : Parser Node := do return (← inner.name).node
  /-- Words, a parenthesis and what they are about, in braces. -/
  within (words : String) (p : Parser Node) : Parser Node := do
    return enclosed ("\x7b" ++ words) (← p) ")\x7d"
  /-- A function that adjusts its receiver before it calls another. -/
  thunk (offsets : String) : Parser Node :=
    within s!"virtual override thunk({offsets}, " inner.encoding

def Grammar.above : Grammar where
  encoding := Itanium.encoding inner
  name := Itanium.name inner
  nestedName := Itanium.nestedName inner
  scopedName := Itanium.scopedName inner
  unscopedName := Itanium.unscopedName inner
  localName := Itanium.localName inner
  simpleName := Itanium.simpleName inner
  operatorName := Itanium.operatorName inner
  closure := Itanium.closure inner
  type := Itanium.type inner
  classType := Itanium.classType inner
  signature := Itanium.signature inner
  functionType := Itanium.functionType inner
  decltype := Itanium.decltype inner
  templateArguments := Itanium.templateArguments inner
  templateArgument := Itanium.templateArgument inner
  literal := Itanium.literal inner
  expression := Itanium.expression inner
  dependentName := Itanium.dependentName inner
  specialName := Itanium.specialName inner

/-- The parsers of parts that nest at most so deep. -/
def Grammar.ofDepth : Nat → Grammar
  | 0 => .refusing
  | depth + 1 => (ofDepth depth).above

/-- Names that nest deeper are refused. -/
def depthLimit : Nat := 94

/-- What a name stands for, as it is read. -/
def demangle? (name : String) : Option String := do
  let rest ← Text.after? "_Z".toList name.toList
  match (Grammar.ofDepth depthLimit).encoding { rest } with
  | .ok (node, s) => if s.rest.isEmpty then node.render? else none
  | .error _ => none

end StackSurvey.Mangling.Itanium
