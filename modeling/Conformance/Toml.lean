import Conformance.Toml.Statement

namespace Conformance.Toml

/-- How a table came about. -/
inductive Origin where
  /-- The whole text, a header, or an element of an array of tables. -/
  | header
  /-- The header of a table inside it. -/
  | implied
  | dotted
  | inline
  deriving DecidableEq, Repr

inductive Node where
  | scalar (d : Datum)
  | list (items : List Node)
  | elements (items : List Node)
  | table (origin : Origin) (entries : List (String × Node))

abbrev Entries := List (String × Node)

def replace (key : String) (node : Node) (es : Entries) : Entries :=
  es.map fun e ↦ if e.1 = key then (key, node) else e

/-- Whether the way to a key may lead through a table: one that a header defines is closed to dotted
keys, and one that is a value is closed to everything. -/
def Origin.admits : Origin → (viaDots : Bool) → Bool
  | .inline, _ => false
  | .header, viaDots => !viaDots
  | _, _ => true

/-- Changes the table that parents lead to; those that are missing come about on the way. -/
def within (viaDots : Bool) (change : Origin → Entries → Option Entries) :
    List String → Origin → Entries → Option Entries
  | [], origin, es => change origin es
  | k :: ks, _, es =>
    match es.lookup k with
    | none => do
      let new := if viaDots then Origin.dotted else .implied
      let inner ← within viaDots change ks new []
      return es ++ [(k, .table new inner)]
    | some (.table origin inner) =>
      if origin.admits viaDots then do
        let inner ← within viaDots change ks origin inner
        return replace k (.table origin inner) es
      else none
    | some (.elements items) =>
      match items.getLast? with
      | some (.table origin inner) => do
        let inner ← within viaDots change ks origin inner
        return replace k (.elements (items.dropLast ++ [.table origin inner])) es
      | _ => none
    | some _ => none

/-- One more entry of a table; dotted keys reach only tables that dotted keys have made. -/
def insert (path : KeyPath) (node : Node) : Origin → Entries → Option Entries :=
  within true
    (fun origin es ↦
      if (origin == .dotted) == path.parents.isEmpty || (es.lookup path.key).isSome then none
      else some (es ++ [(path.key, node)]))
    path.parents

mutual

def Value.node : Value → Option Node
  | .scalar d => some (.scalar d)
  | .list items => (nodes items).map .list
  | .table entries => (insertAll .inline [] entries).map (.table .inline)

def nodes : List Value → Option (List Node)
  | [] => some []
  | v :: vs => do return (← v.node) :: (← nodes vs)

def insertAll (origin : Origin) (es : Entries) : List (KeyPath × Value) → Option Entries
  | [] => some es
  | (path, v) :: rest => do
    let es ← insert path (← v.node) origin es
    insertAll origin es rest

end

/-- The entries after a table header, with those that tables inside it have brought about. -/
def openTable (path : KeyPath) (written : List (KeyPath × Value)) (es : Entries) : Option Entries :=
  within false
    (fun _ es ↦
      match es.lookup path.key with
      | none => do
        let inner ← insertAll .header [] written
        return es ++ [(path.key, .table .header inner)]
      | some (.table .implied inner) => do
        let inner ← insertAll .header inner written
        return replace path.key (.table .header inner) es
      | some _ => none)
    path.parents .header es

def openElement (path : KeyPath) (written : List (KeyPath × Value)) (es : Entries) :
    Option Entries :=
  within false
    (fun _ es ↦ do
      let element ← insertAll .header [] written
      match es.lookup path.key with
      | none => return es ++ [(path.key, .elements [.table .header element])]
      | some (.elements items) =>
        return replace path.key (.elements (items ++ [.table .header element])) es
      | some _ => none)
    path.parents .header es

def leadingEntries : List Statement → List (KeyPath × Value)
  | .entry path v :: rest => (path, v) :: leadingEntries rest
  | _ => []

def build (es : Entries) : List Statement → Option Entries
  | [] => some es
  | .entry _ _ :: rest => build es rest
  | .table path :: rest => do build (← openTable path (leadingEntries rest) es) rest
  | .element path :: rest => do build (← openElement path (leadingEntries rest) es) rest

mutual

def Node.datum : Node → Datum
  | .scalar d => d
  | .list items | .elements items => .list (data items)
  | .table _ entries => .table (entryData entries)

def data : List Node → List Datum
  | [] => []
  | n :: ns => n.datum :: data ns

def entryData : List (String × Node) → List (String × Datum)
  | [] => []
  | (k, n) :: es => (k, n.datum) :: entryData es

end

/-- The table that a TOML text describes; the text may begin with a byte order mark. -/
def parse (text : String) : Option Datum := do
  let cs :=
    match text.toList with
    | '\uFEFF' :: cs => cs
    | cs => cs
  let (ss, _) ← statements cs
  let es ← insertAll .header [] (leadingEntries ss)
  let es ← build es ss
  return .table (entryData es)

end Conformance.Toml
