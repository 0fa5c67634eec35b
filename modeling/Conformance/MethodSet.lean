import Conformance.Program.Flattening

namespace Conformance

/-- The required sets of declared interfaces, by name. -/
abbrev Shapes := List (String × List Signature)

def dropRepeats : List Descriptor → List Descriptor
  | [] => []
  | [d] => [d]
  | d :: e :: ds => if d = e then dropRepeats (e :: ds) else d :: dropRepeats (e :: ds)

structure MethodSet where
  /-- In the order of their names. -/
  methods : List Signature := []
  /-- Embedded types that have no expansion. -/
  unexpanded : List Descriptor := []

namespace MethodSet

def addMethods (set : MethodSet) (ss : List Signature) : MethodSet :=
  { set with methods := ss.foldl (fun ms s ↦ insertMethod s ms) set.methods }

def addUnexpanded (set : MethodSet) (d : Descriptor) : MethodSet :=
  { set with unexpanded := set.unexpanded ++ [d] }

mutual

def embed (shapes : Shapes) (set : MethodSet) : Descriptor → MethodSet
  | .interface own embeds => embedAll shapes (set.addMethods own) embeds
  | .named name [] =>
    match shapes.lookup name with
    | some required => set.addMethods required
    | none => set.addUnexpanded (.named name [])
  | d => set.addUnexpanded d

def embedAll (shapes : Shapes) (set : MethodSet) : List Descriptor → MethodSet
  | [] => set
  | d :: ds => embedAll shapes (embed shapes set d) ds

end

/-- The set with its unexpanded types in the order of their texts, each of them once. -/
def canonical (set : MethodSet) : MethodSet :=
  { set with
    unexpanded := dropRepeats (set.unexpanded.mergeSort fun a b ↦ decide (a.render ≤ b.render)) }

def ofElements (shapes : Shapes) (own : List Signature) (embeds : List Descriptor) : MethodSet :=
  (embed shapes {} (.interface own embeds)).canonical

end MethodSet

namespace Program

/-- The required sets that inline interfaces can expand: those of named interfaces without type
parameters. -/
def shapes (p : Program) : Shapes :=
  (p.interfaces.zip p.requiredSets).filterMap fun (d, required) ↦
    if d.typeParams.isEmpty then d.name.bind fun name ↦ required.map fun ms ↦ (name, ms) else none

end Program

end Conformance
