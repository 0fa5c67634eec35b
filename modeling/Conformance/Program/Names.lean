import Conformance.Problem
import Conformance.Program

namespace Conformance

/-- The place of an interface among the interfaces of a program. -/
abbrev InterfaceId := Nat

abbrev TypeId := Nat

abbrev MethodId := Nat

inductive Symbol where
  | interface (id : InterfaceId)
  | type (id : TypeId)
  deriving DecidableEq, Repr

structure Names where
  declared : List (String × Symbol)
  externals : List String

namespace Names

def lookup? (ns : Names) (name : String) : Option Symbol := ns.declared.lookup name

def interface? (ns : Names) (name : String) : Option InterfaceId :=
  match ns.lookup? name with
  | some (.interface id) => some id
  | _ => none

def type? (ns : Names) (name : String) : Option TypeId :=
  match ns.lookup? name with
  | some (.type id) => some id
  | _ => none

end Names

namespace Program

def names (p : Program) : Names where
  declared :=
    p.interfaces.zipIdx.filterMap (fun (d, id) ↦ d.name.map fun name ↦ (name, .interface id)) ++
      p.types.zipIdx.map fun (d, id) ↦ (d.name, .type id)
  externals := p.externals

/-- The names that stand after themselves or in `seen`, each as often as that. -/
def repeatedNames (seen : List String) : List String → List String
  | [] => []
  | n :: ns => if n ∈ seen then n :: repeatedNames seen ns else repeatedNames (n :: seen) ns

structure Attachment where
  type : TypeId
  method : MethodId
  name : String

/-- The methods attached to their types: a type has one method of each name, the first. -/
def attach (ns : Names) (attached : List Attachment) :
    List (MethodDecl × MethodId) → List Attachment × List Problem
  | [] => (attached, [])
  | (m, id) :: rest =>
    match ns.type? m.receiver with
    | none =>
      let (as, ps) := attach ns attached rest
      (as, .unresolvedType m.receiver m.qualifiedName :: ps)
    | some t =>
      if attached.any fun a ↦ a.type == t && a.name == m.signature.name then
        let (as, ps) := attach ns attached rest
        (as, .duplicateDeclaration m.qualifiedName :: ps)
      else attach ns (attached ++ [⟨t, id, m.signature.name⟩]) rest

def attachments (p : Program) : List Attachment := (attach p.names [] p.methods.zipIdx).1

/-- Names declared twice, and methods that belong to no type or are declared twice. -/
def namingProblems (p : Program) : List Problem :=
  (repeatedNames [] (p.names.declared.map (·.1))).map .duplicateDeclaration ++
    (attach p.names [] p.methods.zipIdx).2

def methodsOf (attached : List Attachment) (t : TypeId) : List MethodId :=
  (attached.filter (·.type == t)).map (·.method)

end Program

end Conformance
