import StackSurvey.Mangling.Itanium.Node

namespace StackSurvey.Mangling.Itanium

/-- A layer around a type or a name. -/
inductive Layer where
  /-- Qualifiers, which may be those of an array itself. -/
  | qualified (qualifiers : Qualifiers) (isOfArray : Bool)
  | pointer
  | lvalue
  | rvalue
  | memberPointer (owner : Node)
  | vector (size : Node)
  | array (bound : Node)
  /-- What follows the parameters of a function in its type. -/
  | trailer (qualifiers : Qualifiers) (exceptions : Option Node)
  /-- The parameters of a function, around its result or its name. -/
  | parameters (types : List Node)
deriving Inhabited

namespace Layer

def isQualified : Layer → Bool
  | qualified _ _ => true
  | _ => false

def isReference : Layer → Bool
  | lvalue => true
  | rvalue => true
  | _ => false

def isLvalue : Layer → Bool
  | lvalue => true
  | _ => false

def isRvalue : Layer → Bool
  | rvalue => true
  | _ => false

/-- True of the layers that may touch a parenthesis or a star before their own parenthesis. -/
def isTight : Layer → Bool
  | pointer => true
  | layer => layer.isReference

/-- True of the layers that stand in parentheses before the parameters of a function. -/
def needsParentheses : Layer → Bool
  | qualified _ _ => true
  | memberPointer _ => true
  | layer => layer.isTight

/-- True of the layers that are written behind the parameters of a function even if they wait
outside them. -/
def isBehindParameters : Layer → Bool
  | trailer q exceptions => q.isCv || exceptions.isSome
  | _ => false

end Layer

/-- What has been written, and the layers that wait. -/
structure Page where
  text : String := ""
  /-- The layers that wait, the nearest first. -/
  layers : List Layer := []
  /-- True among the parameters of a lambda, where template parameters have no arguments. -/
  isInLambda : Bool := false
  /-- True if arguments that stand for one parameter have been written. -/
  hasPack : Bool := false
deriving Inhabited

/-- A computation that writes on a page. -/
abbrev Writer (α : Type) : Type := StateT Page Option α

namespace Writer

def put (text : String) : Writer Unit := modify fun page => { page with text := page.text ++ text }

/-- Writes a blank, unless there is one. -/
def putBlank : Writer Unit := do unless (← get).text.endsWith " " do put " "

def putWords (words : List String) : Writer Unit :=
  words.forM fun word => do
    putBlank
    put word

def commaSeparated : List (Writer Unit) → Writer Unit
  | [] => pure ()
  | piece :: pieces => do
    piece
    pieces.forM fun piece => do
      put ", "
      piece

/-- Writes template arguments in angle brackets, which never touch another bracket of their kind. -/
def angled (arguments : List (Writer Unit)) : Writer Unit := do
  if (← get).text.endsWith "<" then put " "
  put "<"
  commaSeparated arguments
  if (← get).text.endsWith ">" then put " "
  put ">"

def setLayers (layers : List Layer) : Writer Unit := modify fun page => { page with layers }

/-- The nearest layer, which no longer waits. -/
def takeLayer? : Writer (Option Layer) := do
  match (← get).layers with
  | [] => return none
  | layer :: layers =>
    setLayers layers
    return some layer

/-- Writes something that none of the layers is around. -/
def alone (p : Writer Unit) : Writer Unit := do
  let layers := (← get).layers
  setLayers []
  p
  setLayers layers

/-- Writes something with one more layer around it, and the layer itself if it still waits. -/
def around (layer : Layer) (inside own : Writer Unit) : Writer Unit := do
  let layers := (← get).layers
  setLayers (layer :: layers)
  inside
  if (← get).layers.length = layers.length + 1 then
    let _ ← takeLayer?
    own

variable (writeLayer : Layer → Writer Unit)

def drain : Nat → Writer Unit
  | 0 => pure ()
  | count + 1 => do
    match ← takeLayer? with
    | none => pure ()
    | some layer =>
      writeLayer layer
      drain count

def drainAll : Writer Unit := do drain writeLayer (← get).layers.length

/-- Writes at most `count` layers; those behind the parameters of a function are put aside, and
wait again in the end. -/
def drainBefore (aside : List Layer) : Nat → Writer Unit
  | 0 => setLayers aside.reverse
  | count + 1 => do
    match ← takeLayer? with
    | none => setLayers aside.reverse
    | some layer =>
      if layer.isBehindParameters then
        drainBefore (layer :: aside) count
      else
        writeLayer layer
        drainBefore aside count

/-- Writes the layers that stand before the parameters of a function. -/
def putDeclarator : Writer Unit := do
  let page ← get
  let drained := drainBefore writeLayer [] page.layers.length
  match page.layers.find? (·.needsParentheses) with
  | none => drained
  | some layer =>
    unless layer.isTight && (page.text.endsWith "(" || page.text.endsWith "*") do putBlank
    put "("
    drained
    put ")"

/-- Writes the layers around an array, at most `count` of those that are qualifiers of its own.
Arrays in arrays have one declarator. -/
def putArrayDeclarator : Nat → Writer Unit
  | 0 => putBlank
  | count + 1 => do
    match ← takeLayer? with
    | none => putBlank
    | some (.array bound) => writeLayer (.array bound)
    | some (.qualified q true) =>
      writeLayer (.qualified q true)
      putArrayDeclarator count
    | some layer =>
      putBlank
      if layer.isQualified then
        writeLayer layer
        putBlank
        put "("
      else
        put "("
        writeLayer layer
      drainAll writeLayer
      put ")"
      putBlank

end Writer

/-- Template arguments that parameters stand for. -/
structure Scope where
  arguments : List Node
  /-- How many of the arguments may be referred to. -/
  visible : Nat
deriving Inhabited

namespace Scope

/-- The argument of a template parameter in the nearest scope that has one. -/
def argument? (index : Nat) : List Scope → Option Node
  | [] => none
  | scope :: outer =>
    if index < scope.arguments.length then (scope.arguments.take scope.visible)[index]?
    else argument? index outer

/-- The scopes in which an argument is written: it may refer to those before it. -/
def inside (arguments : List Node) (index : Nat) : List Scope → List Scope
  | [] => []
  | scope :: outer =>
    let visible := if scope.arguments == arguments then index else scope.arguments.length
    { scope with visible } :: outer

/-- The scopes in a function, which may be a template with arguments. -/
def within (scopes : List Scope) : Option (List Node) → List Scope
  | none => scopes
  | some arguments => { arguments, visible := arguments.length } :: scopes

end Scope

open Writer

mutual

/-- Writes a node. What would nest deeper than `depth` is refused, and so is a template parameter
without an argument. -/
def write (scopes : List Scope) : Nat → Node → Writer Unit
  | _, .text s => put s
  | _ + 2, .builtin name => put name
  | depth + 1, .parts items => items.forM fun item => write scopes depth item
  | depth + 2, .member scope name => do
    alone do write scopes depth scope
    put "::"
    write scopes depth name
  | depth + 2, .nested name q => do
    write scopes depth name
    if let some layer ← takeLayer? then writeLayer scopes depth layer
    putWords q.words
  | depth + 2, .template name arguments => do
    write scopes depth name
    writeArguments scopes depth arguments
  | depth + 1, .pack items => do
    modify fun page => { page with hasPack := true }
    commaSeparated (items.map fun item => write scopes depth item)
  | depth + 2, .expansion type => do
    write scopes depth type
    unless (← get).hasPack do put "..."
  | depth + 4, .parameter index => do
    if (← get).isInLambda then
      put s!"auto:{index + 1}"
    else
      let some argument := Scope.argument? index scopes | failure
      write scopes depth argument
  | depth + 2, .lambda parameters number => alone do
    put "\x7blambda("
    modify fun page => { page with isInLambda := true }
    commaSeparated (parameters.map fun type => write scopes depth type)
    modify fun page => { page with isInLambda := false }
    put s!")#{number}\x7d"
  | depth + 1, .entity node => alone do write scopes depth node
  | depth + 1, .function arguments result name parameters => alone do
    let scopes := Scope.within scopes arguments
    if let some result := result then
      write scopes depth result
      put " "
    around (.parameters parameters) (write scopes depth name)
      (writeLayer scopes depth (.parameters parameters))
  | depth + 3, .named name => write scopes depth name
  | depth + 2, .qualified q type =>
    let layer := .qualified q type.isArray
    around layer (write scopes depth type) (writeLayer scopes depth layer)
  | depth + 2, .pointer type =>
    around .pointer (write scopes depth type) (writeLayer scopes depth .pointer)
  | depth + 2, .lvalue type =>
    around .lvalue (write scopes depth type) (writeLayer scopes depth .lvalue)
  | depth + 2, .rvalue type =>
    around .rvalue (write scopes depth type) (writeLayer scopes depth .rvalue)
  | depth + 3, .memberPointer owner type =>
    let layer := .memberPointer owner
    around layer (write scopes depth type) (writeLayer scopes depth layer)
  | depth + 3, .array bound type =>
    let layer := .array bound
    around layer (write scopes depth type) (writeLayer scopes depth layer)
  | depth + 3, .vector size type =>
    let layer := .vector size
    around layer (write scopes depth type) (writeLayer scopes depth layer)
  | depth + 4, .functionType result parameters q exceptions =>
    let layer := .trailer q exceptions
    around layer
      (around (.parameters parameters) (write scopes depth result) do
        putBlank
        writeLayer scopes depth (.parameters parameters))
      (writeLayer scopes depth layer)
  | _, _ => failure

def writeArguments (scopes : List Scope) : Nat → List Node → Writer Unit
  | depth + 2, arguments => alone do
    angled (arguments.mapIdx fun index argument =>
      write (Scope.inside arguments index scopes) depth argument)
  | _, _ => failure

/-- Writes a layer that no longer waits. -/
def writeLayer (scopes : List Scope) : Nat → Layer → Writer Unit
  | _, .qualified q _ => putWords q.words
  | _, .pointer => put "*"
  | _, .lvalue => do
    setLayers ((← get).layers.dropWhile (·.isReference))
    put "&"
  | _, .rvalue => do
    let layers := (← get).layers.dropWhile (·.isRvalue)
    setLayers layers
    unless layers.head?.any (·.isLvalue) do put "&&"
  | depth + 1, .memberPointer owner => do
    unless (← get).text.endsWith "(" do putBlank
    alone do write scopes depth owner
    put "::*"
  | depth + 1, .vector size => do
    put " __vector("
    write scopes depth size
    put ")"
  | depth + 1, .array bound => do
    putArrayDeclarator (fun layer => writeLayer scopes depth layer) (← get).layers.length
    put "["
    write scopes depth bound
    put "]"
  | depth + 1, .trailer q exceptions => do
    putWords q.words
    if let some exceptions := exceptions then
      putBlank
      write scopes depth exceptions
  | depth + 3, .parameters types => do
    putDeclarator fun layer => writeLayer scopes depth layer
    put "("
    alone (commaSeparated (types.map fun type => write scopes depth type))
    put ")"
    drainAll fun layer => writeLayer scopes depth layer
  | _, _ => failure

end

/-- Nodes that nest deeper are not written. -/
def writingDepth : Nat := 126

/-- A node as it is read; nothing if it nests too deep or if a template parameter has no
argument. -/
def Node.render? (node : Node) : Option String := do
  let (_, page) ← (write [] writingDepth node).run {}
  return page.text

end StackSurvey.Mangling.Itanium
