import Conformance.EdgeSet.Views

namespace Conformance

namespace Lens

inductive Subject where
  | interface (name : String)
  | interfaceMethod (interface method : String)
  | type (name : String)
  | typeMethod (receiver method : String)
  deriving DecidableEq, Repr

def Subject.text : Subject → String
  | interface name | type name => name
  | interfaceMethod owner method | typeMethod owner method => owner ++ "." ++ method

structure Switches where
  enable : Bool := true
  showOnInterfaces : Bool := true
  showOnMethods : Bool := true
  showOnTypes : Bool := true
  perMethodAttribution : Bool := true
  deriving DecidableEq, Repr

def implementationLabel : Nat → String
  | 0 => "No implementations"
  | 1 => "1 implementation"
  | n => toString n ++ " implementations"

/-- A symbol that implements nothing has no label. -/
def implementsLabel? (names : List String) : Option String :=
  if names.isEmpty then none else some ("Implements: " ++ Text.join ", " names)

end Lens

structure Lens where
  subject : Lens.Subject
  location : Option Location
  label : String
  targets : List String
  deriving DecidableEq, Repr

namespace Lens

def counting (subject : Subject) (location : Option Location) (targets : List String) : Lens :=
  ⟨subject, location, implementationLabel targets.length, targets⟩

def listing? (subject : Subject) (location : Option Location) (targets : List String) :
    Option Lens :=
  (implementsLabel? targets).map fun label ↦ ⟨subject, location, label, targets⟩

end Lens

namespace EdgeSet

variable (s : EdgeSet)

def interfaceLens (i : InterfaceNode) : Lens :=
  .counting (.interface i.name) i.location ((s.implementors i.id).map (·.name))

def qualifiedName (m : MethodNode) : String :=
  (match s.types[m.receiver]? with
    | some t => t.name
    | none => "") ++ "." ++ m.signature.name

def interfaceMethodLens (i : InterfaceNode) (required : Signature) : Lens :=
  .counting (.interfaceMethod i.name required.name) (i.methodLocation? required.name)
    ((s.methodImplementations i.id required.name).map s.qualifiedName)

def typeLens? (t : TypeNode) : Option Lens :=
  Lens.listing? (.type t.name) t.location ((s.implementedInterfaces t.id).map (·.name))

def typeMethodLens? (t : TypeNode) (id : MethodId) : Option Lens :=
  (s.methods[id]?).bind fun m ↦
    Lens.listing? (.typeMethod t.name m.signature.name) m.location
      ((s.implementedMethods id).map fun (i, required) ↦ i.name ++ "." ++ required)

/-- The lenses that are switched on: those of each interface and its methods, then those of each
type and its methods. -/
def lenses (on : Lens.Switches) : List Lens :=
  if on.enable then
    s.interfaces.flatMap (fun i ↦
        (if on.showOnInterfaces then [s.interfaceLens i] else []) ++
          if on.showOnMethods then i.required.map (s.interfaceMethodLens i) else []) ++
      s.types.flatMap fun t ↦
        (if on.showOnTypes then (s.typeLens? t).toList else []) ++
          if on.perMethodAttribution then t.methods.filterMap (s.typeMethodLens? t) else []
  else []

end EdgeSet

end Conformance
