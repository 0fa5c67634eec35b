import Conformance.Yaml.Tree

namespace Conformance.Yaml

inductive Node where
  | absent
  | scalar (tag : Option String) (style : Style) (text : String)
  | sequence (tag : Option String) (items : List Node)
  | mapping (tag : Option String) (entries : List (Node × Node))

/-- The anchors so far. An anchor is known by the number of names before it, so an anchor that comes
after a repeated name shares the number of that one and takes its place. -/
structure Anchors where
  names : List (String × Nat) := []
  targets : List (Nat × Tree Nat) := []

namespace Anchors

def define (a : Anchors) : Option String → Option Nat × Anchors
  | none => (none, a)
  | some name =>
    let number := a.names.length
    let others := a.names.filter (·.1 != name)
    (some number, { a with names := others ++ [(name, number)] })

/-- The anchors where the last of them comes first, with a target placed before those in it. -/
def place (number : Option Nat) (tree : Tree Nat) (before inside : Anchors) : Anchors :=
  match number with
  | none => inside
  | some n =>
    let inner := inside.targets.take (inside.targets.length - before.targets.length)
    { inside with targets := inner ++ (n, tree) :: before.targets }

end Anchors

mutual

/-- The tree with numbers for the names of its aliases, each of which is an anchor before it. -/
def Tree.number (a : Anchors) : Tree String → Option (Tree Nat × Anchors)
  | .alias name => (a.names.lookup name).map fun n ↦ (.alias n, a)
  | .scalar p style text =>
    let (n, inside) := a.define p.anchor
    let tree : Tree Nat := .scalar p style text
    some (tree, Anchors.place n tree a inside)
  | .sequence p items => do
    let (n, inside) := a.define p.anchor
    let (items, inside) ← numberItems inside items
    let tree : Tree Nat := .sequence p items
    return (tree, Anchors.place n tree a inside)
  | .mapping p entries => do
    let (n, inside) := a.define p.anchor
    let (entries, inside) ← numberEntries inside entries
    let tree : Tree Nat := .mapping p entries
    return (tree, Anchors.place n tree a inside)

def numberItems (a : Anchors) : List (Tree String) → Option (List (Tree Nat) × Anchors)
  | [] => some ([], a)
  | t :: ts => do
    let (t, a) ← t.number a
    let (ts, a) ← numberItems a ts
    return (t :: ts, a)

def numberEntries (a : Anchors) :
    List (Tree String × Tree String) → Option (List (Tree Nat × Tree Nat) × Anchors)
  | [] => some ([], a)
  | (k, v) :: es => do
    let (k, a) ← k.number a
    let (v, a) ← v.number a
    let (es, a) ← numberEntries a es
    return ((k, v) :: es, a)

end

mutual

/-- The number of marks that a tree is made of: one for each scalar and alias, two for a
collection. -/
def Tree.size {α : Type} : Tree α → Nat
  | .alias _ | .scalar .. => 1
  | .sequence _ items => sizeOfItems items + 2
  | .mapping _ entries => sizeOfEntries entries + 2

def sizeOfItems {α : Type} : List (Tree α) → Nat
  | [] => 0
  | t :: ts => t.size + sizeOfItems ts

def sizeOfEntries {α : Type} : List (Tree α × Tree α) → Nat
  | [] => 0
  | (k, v) :: es => k.size + v.size + sizeOfEntries es

end

section

variable (expand : Tree Nat → (jumps : Nat) → Option (Node × Nat))

def expandItems : List (Tree Nat) → (jumps : Nat) → Option (List Node × Nat)
  | [], jumps => some ([], jumps)
  | t :: ts, jumps => do
    let (n, jumps) ← expand t jumps
    let (ns, jumps) ← expandItems ts jumps
    return (n :: ns, jumps)

def expandEntries :
    List (Tree Nat × Tree Nat) → (jumps : Nat) → Option (List (Node × Node) × Nat)
  | [], jumps => some ([], jumps)
  | (k, v) :: es, jumps => do
    let (k, jumps) ← expand k jumps
    let (v, jumps) ← expand v jumps
    let (es, jumps) ← expandEntries es jumps
    return ((k, v) :: es, jumps)

end

/-- The target of an alias, for which one of the jumps is taken. -/
def follow (targets : List (Nat × Tree Nat)) : Tree Nat → (jumps : Nat) → Option (Tree Nat × Nat)
  | .alias _, 0 => none
  | .alias n, jumps + 1 => (targets.lookup n).map (·, jumps)
  | t, jumps => some (t, jumps)

/-- The node of a tree with at most `depth` collections around one another, and the jumps left. -/
def expand (targets : List (Nat × Tree Nat)) :
    (depth : Nat) → Tree Nat → (jumps : Nat) → Option (Node × Nat)
  | depth, t, jumps => do
    match depth, ← follow targets t jumps with
    | _, (.scalar p style text, jumps) => return (.scalar p.tag style text, jumps)
    | depth + 1, (.sequence p items, jumps) =>
      let (items, jumps) ← expandItems (expand targets depth) items jumps
      return (.sequence p.tag items, jumps)
    | depth + 1, (.mapping p entries, jumps) =>
      let (entries, jumps) ← expandEntries (expand targets depth) entries jumps
      return (.mapping p.tag entries, jumps)
    | _, _ => none

def nestingLimit : Nat := 128

/-- How many aliases may be followed for each mark of a text. -/
def jumpsPerMark : Nat := 100

def Node.ofTree? : Option (Tree String) → Option Node
  | none => some .absent
  | some tree => do
    let (tree, anchors) ← tree.number {}
    let (n, _) ← expand anchors.targets nestingLimit tree (jumpsPerMark * tree.size)
    return n

end Conformance.Yaml
