import Conformance.Descriptor.Render
import Conformance.Grammar.ParameterList

namespace Conformance

namespace Parser

section

variable (type : Parser Descriptor)

def signature : Parser Signature := fun ts ↦ do
  let (name, ts) ← identifier ts
  let ((params, variadic), ts) ← parameters type ts
  let (results, ts) ← results type ts
  return (⟨name, params, results, variadic⟩, ts)

/-- The types up to a closing bracket; a comma may stand before it. -/
def typeList : Parser (List Descriptor) := rounds fun ts ↦
  match ts with
  | ⟨.mark .rbracket, _, _⟩ :: ts => .ok (([], false), ts)
  | ts => do
    let (d, ts) ← type ts
    match ts with
    | ⟨.mark .comma, _, _⟩ :: ts => return (([d], true), ts)
    | ts =>
      let ((), ts) ← expect .rbracket ts
      return (([d], false), ts)

def qualifiedName (name : String) : Parser String
  | ⟨.mark .dot, _, _⟩ :: ts => do
    let (member, ts) ← identifier ts
    return (name ++ "." ++ member, ts)
  | ts => .ok (name, ts)

def typeArguments : Parser (List Descriptor)
  | ⟨.mark .lbracket, _, _⟩ :: ts => typeList type ts
  | ts => .ok ([], ts)

/-- An element of a body ends at a semicolon or before the closing brace. -/
def endElement : Parser Unit
  | ⟨.mark .semi, _, _⟩ :: ts => .ok ((), ts)
  | ts => if startsWith .rbrace ts then .ok ((), ts) else .error (unexpected "`;` or `\x7d`" ts)

def skipSemis : List Placed → List Placed
  | ⟨.mark .semi, _, _⟩ :: ts => skipSemis ts
  | ts => ts

def body {α : Type} (element : Parser (List α)) : Parser (List α) := rounds fun ts ↦
  match skipSemis ts with
  | ⟨.mark .rbrace, _, _⟩ :: ts => .ok (([], false), ts)
  | ts => do
    let (xs, ts) ← element ts
    let ((), ts) ← endElement ts
    return ((xs, true), ts)

inductive Element where
  | method (s : Signature)
  | embed (d : Descriptor)

def typeSet (ts : List Placed) : Fault := ⟨position ts, "type set constraints are not supported"⟩

def interfaceElement : Parser (List Element) := fun ts ↦
  match ts with
  | ⟨.ident _, _, _⟩ :: ⟨.mark .lparen, _, _⟩ :: _ => do
    let (s, ts) ← signature type ts
    return ([.method s], ts)
  | ts => do
    if startsWith .tilde ts then throw (typeSet ts)
    let (d, ts) ← type ts
    if startsWith .pipe ts then throw (typeSet ts)
    return ([.embed d], ts)

def interfaceBody : Parser Descriptor := fun ts ↦ do
  let (elements, ts) ← body (interfaceElement type) ts
  let methods := elements.filterMap fun | .method s => some s | .embed _ => none
  let embeds := elements.filterMap fun | .embed d => some d | .method _ => none
  return (.ofElements methods embeds, ts)

def moreNames : Parser (List String) := rounds fun ts ↦
  match ts with
  | ⟨.mark .comma, _, _⟩ :: ts => do
    let (name, ts) ← identifier ts
    return (([name], true), ts)
  | ts => .ok (([], false), ts)

def skipTag : List Placed → List Placed
  | ⟨.tag _, _, _⟩ :: ts => ts
  | ts => ts

def structElement : Parser (List Field) := fun ts ↦
  match ts with
  | ⟨.ident name, _, _⟩ :: rest =>
    if startsWith .comma rest then do
      let (names, ts) ← moreNames rest
      let (d, ts) ← type ts
      return ((name :: names).map fun n ↦ ⟨some n, d⟩, skipTag ts)
    else if namesElement rest then do
      let (d, ts) ← type rest
      return ([⟨some name, d⟩], skipTag ts)
    else do
      let (d, ts) ← type ts
      return ([⟨none, d⟩], skipTag ts)
  | ts =>
    if startsWith .star ts then do
      let (d, ts) ← type ts
      return ([⟨none, d⟩], skipTag ts)
    else .error (unexpected "field" ts)

def structBody : Parser Descriptor := fun ts ↦ do
  let (fields, ts) ← body (structElement type) ts
  return (.struct fields, ts)

/-- One level of a type, with `type` for the types inside it. -/
def typeLevel : Parser Descriptor
  | [] => .error ⟨none, "expected type, found end of input"⟩
  | t :: ts =>
    match t.token with
    | .ident name => do
      let (name, ts) ← qualifiedName name ts
      let (args, ts) ← typeArguments type ts
      return (.ofName name args, ts)
    | .mark .star => do
      let (d, ts) ← type ts
      return (.pointer d, ts)
    | .mark .lbracket =>
      match ts with
      | ⟨.mark .rbracket, _, _⟩ :: ts => do
        let (d, ts) ← type ts
        return (.slice d, ts)
      | ⟨.int len, _, _⟩ :: ts => do
        let ((), ts) ← expect .rbracket ts
        let (d, ts) ← type ts
        return (.array len d, ts)
      | _ => .error ⟨some t.start, "expected slice or array length"⟩
    | .mark .map => do
      let ((), ts) ← expect .lbracket ts
      let (key, ts) ← type ts
      let ((), ts) ← expect .rbracket ts
      let (value, ts) ← type ts
      return (.map key value, ts)
    | .mark .chan =>
      match ts with
      | ⟨.mark .arrow, _, _⟩ :: ts => do
        let (d, ts) ← type ts
        return (.chan .send d, ts)
      | ts => do
        let (d, ts) ← type ts
        return (.chan .both d, ts)
    | .mark .arrow => do
      let ((), ts) ← expect .chan ts
      let (d, ts) ← type ts
      return (.chan .recv d, ts)
    | .mark .func => do
      let ((params, variadic), ts) ← parameters type ts
      let (results, ts) ← results type ts
      return (.func params results variadic, ts)
    | .mark .interface => do
      let ((), ts) ← expect .lbrace ts
      interfaceBody type ts
    | .mark .struct => do
      let ((), ts) ← expect .lbrace ts
      structBody type ts
    | .mark .lparen => do
      let (d, ts) ← type ts
      let ((), ts) ← expect .rparen ts
      return (d, ts)
    | token => .error ⟨some t.start, "expected type, found " ++ token.describe⟩

end

def typeUpTo : (limit : Nat) → Parser Descriptor
  | 0 => fun ts ↦ .error ⟨position ts, "type nesting too deep"⟩
  | limit + 1 => typeLevel (typeUpTo limit)

end Parser

def nestingLimit : Nat := 256

def Descriptor.parse (text : String) : Except SyntaxError Descriptor :=
  (Parser.typeUpTo nestingLimit).run text

def Signature.parse (text : String) : Except SyntaxError Signature :=
  (Parser.signature (Parser.typeUpTo nestingLimit)).run text

def Descriptor.readsBack (d : Descriptor) : Bool := (parse d.render).toOption == some d

def Signature.readsBack (s : Signature) : Bool := (parse s.render).toOption == some s

end Conformance
