import Conformance.EdgeSet

namespace Conformance.Program

variable (p : Program)

def candidates : List (List Candidate) :=
  let attached := p.attachments
  (List.range p.types.length).map fun t ↦
    (methodsOf attached t).filterMap fun id ↦
      (p.methods[id]?).map fun m ↦ ⟨id, m.resolve, m.form⟩

/-- The edges of one interface with its required set, in the order of the types. -/
def partition (shapes : Shapes) (policy : ReceiverPolicy) (candidates : List (List Candidate)) :
    Option (List Signature) × InterfaceId → List Edge
  | (none, _) => []
  | (some required, id) =>
    candidates.zipIdx.filterMap fun (cs, t) ↦
      (satisfy shapes policy cs [] required).map fun found ↦
        ⟨id, t, found.needsPointer, found.links⟩

def partitions (policy : ReceiverPolicy) : List (List Edge) :=
  p.requiredSets.zipIdx.map (partition p.shapes policy p.candidates)

/-- The position of a method where it is declared: on the interface itself, or else on the first
embedded interface that leads to one. Embeddings without a cycle are no deeper than the number of
interfaces. -/
def declaredLocation? (resolved : List ResolvedInterface) (method : String) :
    (depth : Nat) → InterfaceId → Option Location
  | 0, _ => none
  | depth + 1, id =>
    match p.interfaces[id]?, resolved[id]? with
    | some d, some r =>
      if d.methods.any (·.name == method) then d.methodLocation? method
      else r.embeds.findSome? (declaredLocation? resolved method depth)
    | _, _ => none

def interfaceNodes : List InterfaceNode :=
  let resolved := p.resolvedInterfaces
  (p.interfaces.zip p.requiredSets).zipIdx.map fun ((d, required), id) ↦
    let required := required.getD []
    { id
      name := d.displayName
      anonymous := d.name.isNone
      location := d.location
      required
      methodLocations := required.filterMap fun s ↦
        (p.declaredLocation? resolved s.name p.interfaces.length id).map fun l ↦ (s.name, l) }

def typeNodes : List TypeNode :=
  let attached := p.attachments
  p.types.zipIdx.map fun (d, id) ↦ ⟨id, d.name, d.location, methodsOf attached id⟩

def methodNodes : List MethodNode :=
  let attached := p.attachments
  p.methods.zipIdx.filterMap fun (m, id) ↦
    (attached.find? (·.method == id)).map fun a ↦ ⟨id, a.type, m.form, m.resolve, m.location⟩

def edgeSet (policy : ReceiverPolicy) : EdgeSet :=
  .ofEdges p.interfaceNodes p.typeNodes p.methodNodes (p.partitions policy).flatten

/-- The edge set of the program, or the first of its problems. -/
def edges (policy : ReceiverPolicy) : Except Problem EdgeSet :=
  match p.problems with
  | problem :: _ => .error problem
  | [] => .ok (p.edgeSet policy)

end Conformance.Program
