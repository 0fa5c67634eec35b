import Conformance.Matching

namespace Conformance

structure InterfaceNode where
  id : InterfaceId
  name : String
  anonymous : Bool
  location : Option Location
  /-- In the order of their names. -/
  required : List Signature
  /-- The positions of required methods that have one, in the order of their names. -/
  methodLocations : List (String × Location)

/-- The position of a required method, or that of the interface. -/
def InterfaceNode.methodLocation? (i : InterfaceNode) (method : String) : Option Location :=
  (i.methodLocations.lookup method).or i.location

structure TypeNode where
  id : TypeId
  name : String
  location : Option Location
  methods : List MethodId

structure MethodNode where
  id : MethodId
  receiver : TypeId
  form : ReceiverForm
  signature : Signature
  location : Option Location

structure Edge where
  interface : InterfaceId
  type : TypeId
  needsPointer : Bool
  links : List Link
  deriving DecidableEq, Repr

def Edge.before (a b : Edge) : Bool :=
  decide (a.interface < b.interface) || (a.interface == b.interface && decide (a.type ≤ b.type))

structure EdgeSet where
  interfaces : List InterfaceNode
  types : List TypeNode
  methods : List MethodNode
  edges : List Edge
  byInterface : List (List Nat)
  byType : List (List Nat)

namespace EdgeSet

/-- The places of the edges with each key below `count`. -/
def table (count : Nat) (key : Edge → Nat) (edges : List Edge) : List (List Nat) :=
  (List.range count).map fun k ↦ (edges.zipIdx.filter fun e ↦ key e.1 == k).map (·.2)

/-- The edge set with these edges, which may come in any order. -/
def ofEdges (interfaces : List InterfaceNode) (types : List TypeNode) (methods : List MethodNode)
    (edges : List Edge) : EdgeSet :=
  let edges := edges.mergeSort Edge.before
  { interfaces, types, methods, edges
    byInterface := table interfaces.length (·.interface) edges
    byType := table types.length (·.type) edges }

variable (s : EdgeSet)

def edgesOfInterface (id : InterfaceId) : List Edge :=
  (s.byInterface.getD id []).filterMap (s.edges[·]?)

def edgesOfType (id : TypeId) : List Edge := (s.byType.getD id []).filterMap (s.edges[·]?)

def edge? (interface : InterfaceId) (type : TypeId) : Option Edge :=
  (s.edgesOfInterface interface).find? (·.type == type)

/-- The first interface that is displayed under this name. -/
def interfaceNamed? (name : String) : Option InterfaceNode := s.interfaces.find? (·.name == name)

def typeNamed? (name : String) : Option TypeNode := s.types.find? (·.name == name)

def implements (type interface : String) : Bool :=
  match s.typeNamed? type, s.interfaceNamed? interface with
  | some t, some i => (s.edge? i.id t.id).isSome
  | _, _ => false

end EdgeSet

end Conformance
