import Conformance.Grammar.Types
import Conformance.Proofs.Grammar.Reading

/-!
Parsers with a cursor. A recorded parser reads the grammar of types with one cursor that it changes:
the tokens that are left, the number of types around it, the greatest such number so far and the
steps taken. What it did to the cursor stays done when it refuses the tokens. `Recorded.type limit`
reads a type, with a limit on the types around it or with none.
-/

namespace Conformance

structure Cursor where
  rest : List Token
  /-- The number of types that are being read. -/
  depth : Nat
  /-- The greatest number of types that were being read at once. -/
  deepest : Nat
  steps : Nat

def Cursor.before (rest : List Token) (depth : Nat) : Cursor := ⟨rest, depth, 0, 0⟩

/-- Inside of one more type; that is a step. -/
def Cursor.enter (c : Cursor) : Cursor :=
  { c with depth := c.depth + 1, deepest := max c.deepest (c.depth + 1), steps := c.steps + 1 }

def Cursor.leave (c : Cursor) : Cursor := { c with depth := c.depth - 1 }

inductive Stop where
  | refused
  /-- A bound on rounds or calls ran out. -/
  | exhausted
  deriving DecidableEq

abbrev Recorded := ExceptT Stop (StateM Cursor)

namespace Recorded

/-- The tokens that are left; looking at them is a step. -/
def ahead : Recorded (List Token) := modifyGet fun c ↦ (c.rest, { c with steps := c.steps + 1 })

def pass : Recorded Unit := do
  match (← get).rest with
  | [] => throw .refused
  | _ :: ts => modify fun c ↦ { c with rest := ts, steps := c.steps + 1 }

def sees (m : Mark) : Recorded Bool := return (← ahead).head? == some (.mark m)

def eat (m : Mark) : Recorded Bool := do
  if ← sees m then
    pass
    return true
  else return false

def expect (m : Mark) : Recorded Unit := do
  if ← eat m then return () else throw .refused

def identifier : Recorded String := do
  match ← ahead with
  | .ident name :: _ =>
    pass
    return name
  | _ => throw .refused

def roundsUpTo {α : Type} (round : Recorded (List α × Bool)) : Nat → Recorded (List α)
  | 0 => throw .exhausted
  | n + 1 => do
    let (xs, more) ← round
    if more then return xs ++ (← roundsUpTo round n) else return xs

def rounds {α : Type} (round : Recorded (List α × Bool)) : Recorded (List α) := do
  roundsUpTo round ((← get).rest.length + 1)

/-- The entries as a list of parameters; each of them is a step. -/
def resolve (es : List Entry) : Recorded (List Descriptor × Bool) := do
  modify fun c ↦ { c with steps := c.steps + es.length }
  match Entry.resolve es with
  | .ok list => return list
  | .error _ => throw .refused

section

variable (type : Recorded Descriptor)

def element (naming : Naming) (variadic : Bool) : Recorded Entry :=
  return ⟨← type, naming, variadic, none⟩

def endsElement (ts : List Token) : Bool :=
  ts.isEmpty || ts.head? == some (.mark .comma) || ts.head? == some (.mark .rparen)

def entry : Recorded Entry := do
  match ← ahead with
  | .mark .ellipsis :: _ =>
    pass
    element type .unnamed true
  | .ident _ :: .mark .ellipsis :: _ =>
    pass
    pass
    element type .named true
  | .ident _ :: ts =>
    if Parser.namesTokens ts then
      pass
      element type .named false
    else element type (if endsElement ts then .lone else .unnamed) false
  | _ => element type .unnamed false

def entries : Recorded (List Entry) := rounds do
  let ts ← ahead
  if ts.isEmpty || ts.head? == some (.mark .rparen) then return ([], false)
  else
    let e ← entry type
    return ([e], ← eat .comma)

def parameters : Recorded (List Descriptor × Bool) := do
  expect .lparen
  let es ← entries type
  expect .rparen
  resolve es

def results : Recorded (List Descriptor) := do
  if ← sees .lparen then
    let (types, variadic) ← parameters type
    if variadic then throw .refused else return types
  else
    let ts ← ahead
    if ts.head?.any Token.startsType then return [← type] else return []

def signature : Recorded Signature := do
  let name ← identifier
  let (params, variadic) ← parameters type
  let results ← results type
  return ⟨name, params, results, variadic⟩

def typeList : Recorded (List Descriptor) := rounds do
  if ← eat .rbracket then return ([], false)
  else
    let d ← type
    if ← eat .comma then return ([d], true)
    else
      expect .rbracket
      return ([d], false)

def qualifiedName (name : String) : Recorded String := do
  if ← eat .dot then return name ++ "." ++ (← identifier) else return name

def typeArguments : Recorded (List Descriptor) := do
  if ← eat .lbracket then typeList type else return []

def endElement : Recorded Unit := do
  if ← eat .semi then return ()
  else if ← sees .rbrace then return () else throw .refused

def skipSemis : Recorded Unit := do
  let _ ← rounds do return ([()], ← eat .semi)
  return ()

def body {α : Type} (element : Recorded (List α)) : Recorded (List α) := rounds do
  skipSemis
  if ← eat .rbrace then return ([], false)
  else
    let xs ← element
    endElement
    return (xs, true)

def interfaceElement : Recorded (List Parser.Element) := do
  match ← ahead with
  | .ident _ :: .mark .lparen :: _ => return [.method (← signature type)]
  | _ =>
    if ← sees .tilde then throw .refused
    else
      let d ← type
      if ← sees .pipe then throw .refused else return [.embed d]

def interfaceBody : Recorded Descriptor := do
  let elements ← body (interfaceElement type)
  let methods := elements.filterMap fun | .method s => some s | .embed _ => none
  let embeds := elements.filterMap fun | .embed d => some d | .method _ => none
  return .ofElements methods embeds

def moreNames : Recorded (List String) := rounds do
  if ← eat .comma then return ([← identifier], true) else return ([], false)

def skipTag : Recorded Unit := do
  match ← ahead with
  | .tag _ :: _ => pass
  | _ => return ()

def fields (names : List (Option String)) : Recorded (List Field) := do
  let d ← type
  skipTag
  return names.map fun n ↦ ⟨n, d⟩

def structElement : Recorded (List Field) := do
  match ← ahead with
  | .ident name :: ts =>
    if ts.head? == some (.mark .comma) then
      pass
      let names ← moreNames
      fields type ((name :: names).map some)
    else if Parser.namesTokens ts then
      pass
      fields type [some name]
    else fields type [none]
  | .mark .star :: _ => fields type [none]
  | _ => throw .refused

def structBody : Recorded Descriptor := return .struct (← body (structElement type))

def typeAfter : Token → Recorded Descriptor
  | .ident name => do
    let name ← qualifiedName name
    let args ← typeArguments type
    return .ofName name args
  | .mark .star => return .pointer (← type)
  | .mark .lbracket => do
    match ← ahead with
    | .mark .rbracket :: _ =>
      pass
      return .slice (← type)
    | .int len :: _ =>
      pass
      expect .rbracket
      return .array len (← type)
    | _ =>
      pass
      throw .refused
  | .mark .map => do
    expect .lbracket
    let key ← type
    expect .rbracket
    return .map key (← type)
  | .mark .chan => do
    if ← eat .arrow then return .chan .send (← type) else return .chan .both (← type)
  | .mark .arrow => do
    expect .chan
    return .chan .recv (← type)
  | .mark .func => do
    let (params, variadic) ← parameters type
    let results ← results type
    return .func params results variadic
  | .mark .interface => do
    expect .lbrace
    interfaceBody type
  | .mark .struct => do
    expect .lbrace
    structBody type
  | .mark .lparen => do
    let d ← type
    expect .rparen
    return d
  | _ => throw .refused

def typeLevel : Recorded Descriptor := do
  match ← ahead with
  | t :: _ =>
    pass
    typeAfter type t
  | [] => throw .refused

end

/-- What `m` reads inside of one more type, unless there are `limit` types already. The number of
types is lowered again whether or not `m` gives a value. -/
def nested {α : Type} (limit : Option Nat) (m : Recorded α) : Recorded α := fun c ↦
  if limit.any (· ≤ c.depth) then (.error .refused, c)
  else
    let (result, c) := m c.enter
    (result, c.leave)

theorem nested_apply {α : Type} (limit : Option Nat) (m : Recorded α) (c : Cursor) :
    nested limit m c = if limit.any (· ≤ c.depth) then (.error .refused, c)
      else ((m c.enter).1, (m c.enter).2.leave) := rfl

/-- A type, with at most `bound` calls inside one another. -/
def typeUpTo (limit : Option Nat) : (bound : Nat) → Recorded Descriptor
  | 0 => throw .exhausted
  | bound + 1 => nested limit (typeLevel (typeUpTo limit bound))

def type (limit : Option Nat) : Recorded Descriptor := do
  typeUpTo limit ((← get).rest.length + 1)

end Recorded

end Conformance
