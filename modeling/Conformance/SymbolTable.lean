import Conformance.Grammar.Types
import Conformance.Program
import Conformance.Text.Blank

namespace Conformance

namespace SymbolTable

inductive InterfaceMethod where
  | plain (signature : String)
  | located (signature : String) (line : Nat)
  deriving DecidableEq, Repr

def InterfaceMethod.signature : InterfaceMethod → String
  | plain s | located s _ => s

def InterfaceMethod.line? : InterfaceMethod → Option Nat
  | plain _ => none
  | located _ line => some line

structure InterfaceEntry where
  /-- An inline interface has no name. -/
  name : Option String := none
  file : Option String := none
  line : Option Nat := none
  typeParams : List String := []
  embeds : List String := []
  methods : List InterfaceMethod := []
  deriving DecidableEq, Repr

structure TypeEntry where
  name : String
  file : Option String := none
  line : Option Nat := none
  /-- Methods with a value receiver. -/
  methods : List String := []
  pointerMethods : List String := []
  deriving DecidableEq, Repr

/-- A method that is listed apart from its type. -/
structure MethodEntry where
  /-- The name of a type, with a star before it for a pointer receiver. -/
  receiver : String
  signature : String
  file : Option String := none
  line : Option Nat := none
  deriving DecidableEq, Repr

end SymbolTable

open SymbolTable in
structure SymbolTable where
  externals : List String := []
  interfaces : List InterfaceEntry := []
  types : List TypeEntry := []
  methods : List MethodEntry := []
  deriving DecidableEq, Repr

namespace SymbolTable

/-- An entry without a line stands on the first line of its file. -/
def location (file : Option String) (line : Option Nat) : Option Location :=
  file.map fun f ↦ ⟨f, line.getD 1⟩

def receiver (text : String) : ReceiverForm × String :=
  let name := Text.trim text
  match name.toList with
  | '*' :: cs => (.pointer, Text.trim (.ofList cs))
  | _ => (.value, name)

def InterfaceMethod.addTo (file : Option String) (d : InterfaceDecl) (m : InterfaceMethod) :
    Except SyntaxError InterfaceDecl := do
  let s ← Signature.parse m.signature
  return d.addMethod s (file.bind fun f ↦ m.line?.map fun line ↦ ⟨f, line⟩)

def InterfaceEntry.declaration (e : InterfaceEntry) : Except SyntaxError InterfaceDecl :=
  e.methods.foldlM (InterfaceMethod.addTo e.file)
    { name := e.name
      typeParams := e.typeParams
      embeds := e.embeds
      location := location e.file e.line }

def TypeEntry.declaration (e : TypeEntry) : TypeDecl := ⟨e.name, location e.file e.line⟩

/-- The methods of a type, those with a value receiver first. -/
def TypeEntry.methodDeclarations (e : TypeEntry) : Except SyntaxError (List MethodDecl) :=
  (e.methods.map (ReceiverForm.value, ·) ++ e.pointerMethods.map (ReceiverForm.pointer, ·)).mapM
    fun (form, text) ↦ do
      let s ← Signature.parse text
      return ⟨e.name, form, s, location e.file e.line⟩

def MethodEntry.declaration (e : MethodEntry) : Except SyntaxError MethodDecl := do
  let s ← Signature.parse e.signature
  let (form, type) := SymbolTable.receiver e.receiver
  return ⟨type, form, s, location e.file e.line⟩

/-- The program of a table, or the error of the first signature that is none. -/
def program (t : SymbolTable) : Except SyntaxError Program := do
  let interfaces ← t.interfaces.mapM (·.declaration)
  let ofTypes ← t.types.mapM (·.methodDeclarations)
  let methods ← t.methods.mapM (·.declaration)
  return {
    interfaces
    types := t.types.map (·.declaration)
    methods := ofTypes.flatten ++ methods
    externals := t.externals }

end SymbolTable

end Conformance
