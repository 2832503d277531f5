namespace StackSurvey.Mangling.Itanium

/-- What may follow a type, a member function or the parameters of a function. -/
structure Qualifiers where
  isConst : Bool := false
  isVolatile : Bool := false
  isRestrict : Bool := false
  /-- The reference sign of a function; empty if it has none. -/
  reference : String := ""
deriving DecidableEq, Inhabited

namespace Qualifiers

/-- True of qualifiers that are more than a reference sign. -/
def isCv (q : Qualifiers) : Bool := q.isConst || q.isVolatile || q.isRestrict

/-- The words of qualifiers. -/
def words (q : Qualifiers) : List String :=
  [(q.isConst, "const"), (q.isVolatile, "volatile"), (q.isRestrict, "restrict"),
    (q.reference ≠ "", q.reference)].filterMap fun (holds, word) =>
      if holds then some word else none

end Qualifiers

/-- A name or a type. -/
inductive Node where
  | text (text : String)
  | builtin (name : String)
  /-- Parts, one after the other. -/
  | parts (items : List Node)
  | member (scope name : Node)
  /-- A name in scopes as a whole, with the qualifiers of a member function. -/
  | nested (name : Node) (qualifiers : Qualifiers)
  | template (name : Node) (arguments : List Node)
  /-- Arguments that stand for one parameter. -/
  | pack (items : List Node)
  | expansion (type : Node)
  /-- A template parameter. -/
  | parameter (index : Nat)
  | lambda (parameters : List Node) (number : Nat)
  /-- What a linker symbol stands for, if it is not a function. -/
  | entity (node : Node)
  /-- A function with its parameters; those of templates have arguments, and may have a result. -/
  | function (arguments : Option (List Node)) (result : Option Node) (name : Node)
      (parameters : List Node)
  /-- A type that has a name. -/
  | named (name : Node)
  | qualified (qualifiers : Qualifiers) (type : Node)
  | pointer (type : Node)
  | lvalue (type : Node)
  | rvalue (type : Node)
  | memberPointer (owner type : Node)
  /-- An array; the text of the bound is empty if there is none. -/
  | array (bound type : Node)
  | vector (size type : Node)
  /-- The type of a function; `exceptions` tells that it throws none. -/
  | functionType (result : Node) (parameters : List Node) (qualifiers : Qualifiers)
      (exceptions : Option Node)
deriving BEq, Inhabited

namespace Node

def isVoid : Node → Bool
  | builtin name => name == "void"
  | _ => false

def isArray : Node → Bool
  | array _ _ => true
  | _ => false

/-- The parameters of a signature; a lone `void` stands for none. -/
def parametersOf : List Node → List Node
  | [type] => if type.isVoid then [] else [type]
  | types => types

end Node

end StackSurvey.Mangling.Itanium
