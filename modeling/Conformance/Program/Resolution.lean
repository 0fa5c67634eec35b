import Conformance.Program.Names

namespace Conformance

def predeclared : List String :=
  ["bool", "string", "int", "int8", "int16", "int32", "int64", "uint", "uint8", "uint16", "uint32",
   "uint64", "uintptr", "float32", "float64", "complex64", "complex128", "error", "comparable"]

/-- Names with a dot belong to other packages. -/
def Names.isKnown (ns : Names) (name : String) : Bool :=
  predeclared.contains name || (ns.lookup? name).isSome || ns.externals.contains name ||
    name.toList.contains '.'

section

variable (owner : String) (params : List String)

mutual

/-- The descriptor with the names `params` as type parameters of `owner`. -/
def Descriptor.markParams : Descriptor → Descriptor
  | .named name [] => if name ∈ params then .param name owner else .named name []
  | .named name (a :: as) => .named name (a.markParams :: markAllParams as)
  | .param name other => .param name other
  | .pointer e => .pointer e.markParams
  | .slice e => .slice e.markParams
  | .array len e => .array len e.markParams
  | .map k v => .map k.markParams v.markParams
  | .chan dir e => .chan dir e.markParams
  | .func ps rs variadic => .func (markAllParams ps) (markAllParams rs) variadic
  | .interface ms es => .ofElements (markSignatureParams ms) (markAllParams es)
  | .struct fs => .struct (markFieldParams fs)

def markAllParams : List Descriptor → List Descriptor
  | [] => []
  | d :: ds => d.markParams :: markAllParams ds

def Signature.markParams : Signature → Signature
  | ⟨name, ps, rs, variadic⟩ => ⟨name, markAllParams ps, markAllParams rs, variadic⟩

def markSignatureParams : List Signature → List Signature
  | [] => []
  | s :: ss => s.markParams :: markSignatureParams ss

def Field.markParams : Field → Field
  | ⟨name, d⟩ => ⟨name, d.markParams⟩

def markFieldParams : List Field → List Field
  | [] => []
  | f :: fs => f.markParams :: markFieldParams fs

end

end

section

variable (params : List String)

mutual

/-- The names of the types that occur, in order, without the type parameters `params`. -/
def Descriptor.occurring : Descriptor → List String
  | .named name [] => if name ∈ params then [] else [name]
  | .named name (a :: as) => name :: (a.occurring ++ allOccurring as)
  | .param _ _ => []
  | .pointer e | .slice e | .array _ e | .chan _ e => e.occurring
  | .map k v => k.occurring ++ v.occurring
  | .func ps rs _ => allOccurring ps ++ allOccurring rs
  | .interface ms es => signaturesOccurring ms ++ allOccurring es
  | .struct fs => fieldsOccurring fs

def allOccurring : List Descriptor → List String
  | [] => []
  | d :: ds => d.occurring ++ allOccurring ds

def Signature.occurring : Signature → List String
  | ⟨_, ps, rs, _⟩ => allOccurring ps ++ allOccurring rs

def signaturesOccurring : List Signature → List String
  | [] => []
  | s :: ss => s.occurring ++ signaturesOccurring ss

def Field.occurring : Field → List String
  | ⟨_, d⟩ => d.occurring

def fieldsOccurring : List Field → List String
  | [] => []
  | f :: fs => f.occurring ++ fieldsOccurring fs

end

end

/-- An interface whose own methods are resolved and whose embedded interfaces are places. -/
structure ResolvedInterface where
  methods : List Signature
  embeds : List InterfaceId

namespace InterfaceDecl

def resolve (ns : Names) (d : InterfaceDecl) : ResolvedInterface where
  methods := d.methods.map (·.markParams d.displayName d.typeParams)
  embeds := d.embeds.filterMap ns.interface?

end InterfaceDecl

def MethodDecl.resolve (m : MethodDecl) : Signature := m.signature.markParams m.receiver []

/-- Adds the unknown names of a signature; a name is reported once for each declaration. -/
def Signature.reportUnknown (ns : Names) (declaration : String) (params : List String)
    (problems : List Problem) (s : Signature) : List Problem :=
  ((s.occurring params).filter fun n ↦ !ns.isKnown n).foldl
    (fun ps n ↦ Problem.addNew ps (.unresolvedType n declaration)) problems

def InterfaceDecl.reportUnknown (ns : Names) (problems : List Problem) (d : InterfaceDecl) :
    List Problem :=
  d.methods.foldl
      (fun ps s ↦ s.reportUnknown ns (d.displayName ++ "." ++ s.name) d.typeParams ps) problems ++
    (d.embeds.filter fun e ↦ (ns.interface? e).isNone).map (.unresolvedType · d.displayName)

def MethodDecl.reportUnknown (ns : Names) (problems : List Problem) (m : MethodDecl) :
    List Problem :=
  m.signature.reportUnknown ns m.qualifiedName [] problems

namespace Program

def resolvedInterfaces (p : Program) : List ResolvedInterface :=
  p.interfaces.map (InterfaceDecl.resolve p.names)

def reportUnknown (p : Program) (problems : List Problem) : List Problem :=
  p.methods.foldl (MethodDecl.reportUnknown p.names)
    (p.interfaces.foldl (InterfaceDecl.reportUnknown p.names) problems)

end Program

end Conformance
