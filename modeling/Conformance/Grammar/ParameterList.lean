import Conformance.Descriptor
import Conformance.Grammar

namespace Conformance

/-- How an element of a list names itself; a lone identifier is a type, or a name for a type to
come. -/
inductive Naming where
  | named
  | lone
  | unnamed
  deriving DecidableEq, Repr

structure Entry where
  type : Descriptor
  naming : Naming
  variadic : Bool
  position : Option Nat

namespace Entry

def misplacedVariadic? : List Entry → Option Entry
  | [] | [_] => none
  | e :: f :: es => if e.variadic then some e else misplacedVariadic? (f :: es)

def lastIsVariadic (es : List Entry) : Bool := es.getLast?.any (·.variadic)

def mixed (position : Option Nat) : Fault := ⟨position, "mixed named and unnamed parameters"⟩

/-- The types of a list with names; `waiting` are the lone identifiers that still lack a type. -/
def distribute (waiting : List Entry) : List Entry → Except Fault (List Descriptor)
  | [] =>
    match waiting with
    | [] => .ok []
    | e :: _ => .error (mixed e.position)
  | e :: es =>
    match e.naming with
    | .unnamed => .error (mixed e.position)
    | .lone => distribute (waiting ++ [e]) es
    | .named => do
      let types ← distribute [] es
      return .replicate (waiting.length + 1) e.type ++ types

def resolve (es : List Entry) : Except Fault (List Descriptor × Bool) :=
  match misplacedVariadic? es with
  | some e => .error ⟨e.position, "can only use ... with final parameter"⟩
  | none =>
    if es.any (·.naming == .named) then do
      let types ← distribute [] es
      return (types, lastIsVariadic es)
    else .ok (es.map (·.type), lastIsVariadic es)

end Entry

namespace Parser

/-- Whether the identifier before these tokens names an element and does not begin its type. -/
def namesElement : List Placed → Bool
  | [] => false
  | t :: ts =>
    match t.token with
    | .mark .dot => false
    | .mark .lbracket =>
      match ts with
      | ⟨.mark .rbracket, _, _⟩ :: _ | ⟨.int _, _, _⟩ :: _ => true
      | _ => false
    | token => token.startsType

/-- Whether the identifier before these tokens is a whole element. -/
def endsElement (ts : List Placed) : Bool :=
  ts.isEmpty || startsWith .comma ts || startsWith .rparen ts

variable (type : Parser Descriptor)

def entry : Parser Entry := fun ts ↦
  let element (naming : Naming) (variadic : Bool) (rest : List Placed) := do
    let (d, rest) ← type rest
    return (⟨d, naming, variadic, position ts⟩, rest)
  match ts with
  | ⟨.mark .ellipsis, _, _⟩ :: ts => element .unnamed true ts
  | ⟨.ident _, _, _⟩ :: ⟨.mark .ellipsis, _, _⟩ :: ts => element .named true ts
  | ⟨.ident _, _, _⟩ :: rest =>
    if namesElement rest then element .named false rest
    else element (if endsElement rest then .lone else .unnamed) false ts
  | ts => element .unnamed false ts

def entries : Parser (List Entry) := rounds fun ts ↦
  if ts.isEmpty || startsWith .rparen ts then .ok (([], false), ts)
  else do
    let (e, ts) ← entry type ts
    match ts with
    | ⟨.mark .comma, _, _⟩ :: ts => return (([e], true), ts)
    | ts => return (([e], false), ts)

def parameters : Parser (List Descriptor × Bool) := fun ts ↦ do
  let ((), ts) ← expect .lparen ts
  let (es, ts) ← entries type ts
  let ((), ts) ← expect .rparen ts
  let list ← Entry.resolve es
  return (list, ts)

def results : Parser (List Descriptor) := fun ts ↦ do
  if startsWith .lparen ts then
    let ((types, variadic), rest) ← parameters type ts
    if variadic then throw ⟨position ts, "results cannot be variadic"⟩
    return (types, rest)
  if ts.head?.any (·.token.startsType) then
    let (d, rest) ← type ts
    return ([d], rest)
  return ([], ts)

end Parser

end Conformance
