import SymbolicAlgebra.Operation.Basic

/-!
The registry: operations in the order of their registration, and keywords. The operations of one
name are its overload set; no two of them share a signature, since registering a second one replaces
the first in its place.
-/

namespace SymbolicAlgebra

structure Registry where
  operations : List Operation := []
  keywords : List Keyword := []

namespace Registry

/-- The operations of a name, in the order of their registration. -/
def overloads (registry : Registry) (name : String) : List Operation :=
  registry.operations.filter (·.name == name)

/-- Whether there is an operation of this name. -/
def contains (registry : Registry) (name : String) : Bool :=
  registry.operations.any (·.name == name)

/-- Whether `operation` is the one with this name and signature. -/
def denotes (name : String) (signature : Signature) (operation : Operation) : Bool :=
  operation.name == name && operation.signature == signature

/-- Puts `operation` in the place of the first one with its name and signature, and at the end where
there is none. -/
def enter (operation : Operation) : List Operation → List Operation
  | [] => [operation]
  | other :: rest =>
    if denotes operation.name operation.signature other then operation :: rest
    else other :: enter operation rest

/-- Registers an operation, in the place of one with the same name and signature if there is one. -/
def register (registry : Registry) (operation : Operation) : Registry :=
  { registry with operations := enter operation registry.operations }

/-- Registers operations from left to right. -/
def registerAll (registry : Registry) (operations : List Operation) : Registry :=
  operations.foldl register registry

/-- Removes the operation with this name and signature; tells whether there was one. -/
def remove (registry : Registry) (name : String) (signature : Signature) : Bool × Registry :=
  (registry.operations.any (denotes name signature),
    { registry with operations := registry.operations.filter (!denotes name signature ·) })

/-- Removes all operations of a name; tells how many there were. -/
def removeAll (registry : Registry) (name : String) : Nat × Registry :=
  ((registry.overloads name).length,
    { registry with operations := registry.operations.filter (·.name != name) })

/-- The operation that a call goes to: the first of its name that accepts the arguments, or else the
first that takes any arguments at all. -/
def resolve (registry : Registry) (name : String) (args : List Node) : Option Operation :=
  let overloads := registry.overloads name
  match overloads.find? (·.accepts args) with
  | some operation => some operation
  | none => overloads.find? (·.isUniversal)

/-- A name has an attribute when one of its operations has it. -/
def hasAttribute (registry : Registry) (selected : Attributes → Bool) (name : String) : Bool :=
  (registry.overloads name).any fun operation => selected operation.attributes

def isCommutative (registry : Registry) (name : String) : Bool :=
  registry.hasAttribute Attributes.commutative name

def isForwardCommutative (registry : Registry) (name : String) : Bool :=
  registry.hasAttribute Attributes.forwardCommutative name

def preservesArguments (registry : Registry) (name : String) : Bool :=
  registry.hasAttribute Attributes.preservesArguments name

/-- The keyword with this spelling. -/
def keyword? (registry : Registry) (symbol : String) : Option Keyword :=
  registry.keywords.find? (·.symbol == symbol)

/-- The first keyword that spells the operation `name`. -/
def keywordFor? (registry : Registry) (name : String) : Option Keyword :=
  registry.keywords.find? (·.operation == name)

/-- Adds a keyword. Its spelling has to be new. -/
def defineKeyword (registry : Registry) (keyword : Keyword) : Except Failure Registry :=
  if (registry.keyword? keyword.symbol).isSome then
    .error (.duplicateDefinition keyword.symbol)
  else .ok { registry with keywords := registry.keywords ++ [keyword] }

/-- Adds the keywords whose spelling is new, from left to right. -/
def defineNewKeywords (registry : Registry) (keywords : List Keyword) : Registry :=
  keywords.foldl (fun registry keyword =>
    match registry.defineKeyword keyword with
    | .ok extended => extended
    | .error _ => registry) registry

/-- How applications of a name are written: by its keyword, or else as its first operation that is
not written as a call declares, spelled by its name. -/
def writing? (registry : Registry) (name : String) : Option Keyword :=
  match registry.keywordFor? name with
  | some keyword => some keyword
  | none =>
    match (registry.overloads name).find? (·.fixity != .call) with
    | some operation => some ⟨name, name, operation.fixity, operation.precedence⟩
    | none => none

end Registry

end SymbolicAlgebra
