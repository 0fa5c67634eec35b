import Conformance.DataView
import Conformance.Decimal
import Conformance.Yaml.Node

namespace Conformance.Yaml

def coreTag (name : String) : String := "tag:yaml.org,2002:" ++ name

def isNull (s : String) : Bool := ["null", "Null", "NULL", "~"].contains s

def bool? (s : String) : Option Bool :=
  if ["true", "True", "TRUE"].contains s then some true
  else if ["false", "False", "FALSE"].contains s then some false
  else none

def isSign (c : Char) : Bool := c == '+' || c == '-'

/-- Digits after a needless zero are no number. -/
def hasLeadingZero (cs : List Char) : Bool :=
  match if cs.head?.any isSign then cs.tail else cs with
  | '0' :: d :: ds => (d :: ds).all Char.isDigit
  | _ => false

def based? : List Char → Option Nat
  | '0' :: 'x' :: cs => Decimal.nat? 16 cs
  | '0' :: 'o' :: cs => Decimal.nat? 8 cs
  | '0' :: 'b' :: cs => Decimal.nat? 2 cs
  | _ => none

def natural? (cs : List Char) : Option Nat :=
  let digits := if cs.head? = some '+' then cs.tail else cs
  (based? digits).or (if hasLeadingZero cs then none else Decimal.nat? 10 digits)

def negated? : List Char → Option Nat
  | '-' :: cs => (based? cs).or (if hasLeadingZero cs then none else Decimal.nat? 10 cs)
  | _ => none

def digitRun (cs : List Char) : List Char × List Char := Reader.run Char.isDigit cs

/-- A number with a point or an exponent, or an integer, as its digits and a power of ten. -/
def scientific? (cs : List Char) : Option (Nat × Int) := do
  let (whole, rest) := digitRun (if cs.head?.any isSign then cs.tail else cs)
  let (fraction, rest) :=
    match rest with
    | '.' :: rest => digitRun rest
    | rest => ([], rest)
  let significand ← Decimal.nat? 10 (whole ++ fraction)
  let shift : Int := -(fraction.length : Int)
  match rest with
  | [] => return (significand, shift)
  | c :: rest =>
    if c ≠ 'e' ∧ c ≠ 'E' then none
    else
      let power ← Decimal.nat? 10 (if rest.head?.any isSign then rest.tail else rest)
      return (significand, shift + if rest.head? = some '-' then -(power : Int) else power)

def isInfinity (cs : List Char) : Bool := [".inf", ".Inf", ".INF"].any (·.toList == cs)

/-- Whether a scalar is a number of double precision, or one of the names of infinity and of what is
no number. -/
def isReal (cs : List Char) : Bool :=
  let unsigned := if cs.head? = some '+' then cs.tail else cs
  if cs.head? = some '+' ∧ unsigned.head?.any isSign then false
  else if isInfinity unsigned ∨ (cs.head? = some '-' ∧ isInfinity cs.tail) then true
  else if [".nan", ".NaN", ".NAN"].any (·.toList == cs) then true
  else (scientific? unsigned).any fun (significand, power) ↦ !Decimal.overflows significand power

/-- What a scalar is as an integer: a number of at most 64 bits, a longer one that is refused, or
none at all. -/
inductive Integer where
  | fits (i : Int)
  | long
  | not

def integer (cs : List Char) : Integer :=
  match natural? cs, negated? cs with
  | some n, _ =>
    if n < Decimal.ofBits 64 then .fits n else if n < Decimal.ofBits 128 then .long else .not
  | none, some n =>
    if n ≤ Decimal.ofBits 63 then .fits (-n) else if n ≤ Decimal.ofBits 127 then .long else .not
  | none, none => .not

def untagged? (s : String) : Option Datum :=
  if s = "" || isNull s then some .null
  else
    match bool? s with
    | some b => some (.bool b)
    | none =>
      match integer s.toList with
      | .fits i => some (.int i)
      | .long => none
      | .not =>
        if !hasLeadingZero s.toList && isReal s.toList then some (.real s) else some (.text s)

/-- A scalar with one of the tags of the schema; with another one it is a text. -/
def tagged? (tag s : String) : Option Datum :=
  if tag.startsWith "!" then none
  else if tag = coreTag "bool" then (bool? s).map .bool
  else if tag = coreTag "int" then
    match integer s.toList with
    | .fits i => some (.int i)
    | _ => none
  else if tag = coreTag "float" then if isReal s.toList then some (.real s) else none
  else if tag = coreTag "null" then if isNull s then some .null else none
  else some (.text s)

def scalar? (tag : Option String) (style : Style) (s : String) : Option Datum :=
  match tag with
  | some tag => tagged? tag s
  | none => if style = .plain then untagged? s else some (.text s)

def isLocal (tag : Option String) : Bool := tag.any (·.startsWith "!")

mutual

/-- Whether every scalar in the node has a meaning, and no tag is one of an application. -/
def Node.isMeant : Node → Bool
  | .absent => true
  | .scalar tag style s => (scalar? tag style s).isSome
  | .sequence tag items => !isLocal tag && areMeant items
  | .mapping tag entries => !isLocal tag && entriesAreMeant entries

def areMeant : List Node → Bool
  | [] => true
  | n :: ns => n.isMeant && areMeant ns

def entriesAreMeant : List (Node × Node) → Bool
  | [] => true
  | (k, v) :: es => k.isMeant && v.isMeant && entriesAreMeant es

end

namespace Node

def text? : Node → Option String
  | .scalar _ _ s => some s
  | _ => none

def nat? : Node → Option Nat
  | .scalar tag style s =>
    if style = .plain ∨ (style = .literal ∧ tag = some (coreTag "int")) then natural? s.toList
    else none
  | _ => none

def absent? : Node → Option Bool
  | .absent => some true
  | .scalar tag .plain s =>
    match tag with
    | none => some (s = "" || isNull s)
    | some tag =>
      if tag = coreTag "null" then if isNull s then some true else none
      else some false
  | _ => some false

def isVacant : Node → Bool
  | .absent => true
  | .scalar _ .plain s => s = ""
  | _ => false

def items? : Node → Option (List Node)
  | .sequence _ items => some items
  | n => if n.isVacant then some [] else none

def fields? (names : List String) : Node → Option (List (String × Node))
  | .mapping _ entries => do
    let fields ← entries.mapM fun (k, v) ↦ do return (← k.text?, v)
    let keys := fields.map (·.1)
    if keys.all names.contains && decide keys.Nodup then some fields else none
  | n => if n.isVacant then some [] else none

/-- The name of a field, or its place among the names; nothing for a field with another name. -/
def fieldName? (names : List String) : Node → Option (Option String)
  | .scalar tag style s =>
    match scalar? tag style s with
    | some (.text name) => some (some name)
    | some (.int _) => (natural? s.toList).map fun n ↦ names[n]?
    | _ => none
  | _ => none

def scalarDatum? : Node → Option Datum
  | .scalar tag style s => scalar? tag style s
  | _ => none

/-- A text, or the fields among the names, which have to be scalars. -/
def textOrFields? (names : List String) (n : Node) : Option (String ⊕ List (String × Datum)) :=
  if !n.isMeant then none
  else
    match n with
    | .scalar tag style s =>
      match scalar? tag style s with
      | some (.text s) => some (.inl s)
      | _ => none
    | .mapping _ entries => do
      let named ← entries.mapM fun (k, v) ↦ do return (← fieldName? names k, v)
      let known := named.filterMap fun (name, v) ↦
        (name.filter names.contains).map fun name ↦ (name, v)
      let fields ← known.mapM fun (name, v) ↦ do return (name, ← v.scalarDatum?)
      return .inr (← DataView.select? names fields)
    | _ => none

instance : DataView Node where
  text? := text?
  nat? := nat?
  absent? := absent?
  items? := items?
  fields? := fields?
  textOrFields? := textOrFields?

end Node

end Conformance.Yaml
