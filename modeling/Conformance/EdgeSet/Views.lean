import Conformance.EdgeSet

namespace Conformance.EdgeSet

variable (s : EdgeSet)

def implementors (id : InterfaceId) : List TypeNode :=
  (s.edgesOfInterface id).filterMap (s.types[·.type]?)

def implementationCount (id : InterfaceId) : Nat := (s.byInterface.getD id []).length

def implementedInterfaces (id : TypeId) : List InterfaceNode :=
  (s.edgesOfType id).filterMap (s.interfaces[·.interface]?)

def methodImplementations (id : InterfaceId) (required : String) : List MethodNode :=
  (((s.edgesOfInterface id).flatMap (·.links)).filter (·.required == required)).filterMap
    (s.methods[·.method]?)

def implementedMethods (id : MethodId) : List (InterfaceNode × String) :=
  match s.methods[id]? with
  | none => []
  | some m =>
    (s.edgesOfType m.receiver).flatMap fun e ↦
      (e.links.filter (·.method == id)).filterMap fun l ↦
        (s.interfaces[e.interface]?).map fun i ↦ (i, l.required)

structure Statistics where
  interfaces : Nat
  types : Nat
  edges : Nat
  pointerEdges : Nat
  unimplementedInterfaces : List String
  /-- Types that implement no interface with a name. -/
  typesWithoutInterfaces : List String

def statistics : Statistics where
  interfaces := s.interfaces.length
  types := s.types.length
  edges := s.edges.length
  pointerEdges := (s.edges.filter (·.needsPointer)).length
  unimplementedInterfaces :=
    (s.interfaces.filter fun i ↦ s.implementationCount i.id == 0).map (·.name)
  typesWithoutInterfaces :=
    (s.types.filter fun t ↦ (s.implementedInterfaces t.id).all (·.anonymous)).map (·.name)

end Conformance.EdgeSet
