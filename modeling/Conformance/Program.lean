import Conformance.Descriptor.Render

namespace Conformance

/-- Where a declaration stands; it takes no part in matching. -/
structure Location where
  file : String
  line : Nat
  deriving DecidableEq, Repr

def Location.render (l : Location) : String := l.file ++ ":" ++ toString l.line

inductive ReceiverForm where
  | value
  | pointer
  deriving DecidableEq, Repr

structure MethodDecl where
  receiver : String
  form : ReceiverForm
  signature : Signature
  location : Option Location := none

def MethodDecl.qualifiedName (m : MethodDecl) : String := m.receiver ++ "." ++ m.signature.name

/-- An interface; an inline one has no name. -/
structure InterfaceDecl where
  name : Option String
  typeParams : List String := []
  methods : List Signature := []
  embeds : List String := []
  location : Option Location := none
  methodLocations : List (String × Location) := []

namespace InterfaceDecl

/-- The declaration with one more method; a location given for it replaces one of the same name. -/
def addMethod (d : InterfaceDecl) (s : Signature) (location : Option Location := none) :
    InterfaceDecl :=
  { d with
    methods := d.methods ++ [s]
    methodLocations :=
      match location with
      | some l => d.methodLocations.filter (·.1 != s.name) ++ [(s.name, l)]
      | none => d.methodLocations }

def methodLocation? (d : InterfaceDecl) (method : String) : Option Location :=
  d.methodLocations.lookup method

/-- The name, or the elements of an interface without one. -/
def displayName (d : InterfaceDecl) : String :=
  match d.name with
  | some name => name
  | none =>
    "interface\x7b" ++ Text.join "; " (d.embeds ++ d.methods.map Signature.render) ++ "\x7d"

end InterfaceDecl

/-- A concrete type; its methods name it as their receiver. -/
structure TypeDecl where
  name : String
  location : Option Location := none

structure Program where
  interfaces : List InterfaceDecl := []
  types : List TypeDecl := []
  methods : List MethodDecl := []
  externals : List String := []

namespace Program

def isEmpty (p : Program) : Bool := p.interfaces.isEmpty && p.types.isEmpty && p.methods.isEmpty

def addExternals (names : List String) : List String → List String
  | [] => names
  | n :: new => addExternals (if n ∈ names then names else names ++ [n]) new

def merge (p q : Program) : Program where
  interfaces := p.interfaces ++ q.interfaces
  types := p.types ++ q.types
  methods := p.methods ++ q.methods
  externals := addExternals p.externals q.externals

end Program

end Conformance
