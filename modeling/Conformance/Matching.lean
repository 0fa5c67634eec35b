import Conformance.MethodSet

namespace Conformance

/-- What type parameters stand for, by owner and name. -/
abbrev Bindings := List ((String × String) × Descriptor)

/-- A comparison under bindings: whether it succeeds, and the bindings after it. What is bound
before it fails stays bound. -/
abbrev Comparison := Bindings → Bool × Bindings

namespace Comparison

def answer (same : Bool) : Comparison := fun b ↦ (same, b)

def onlyIf (condition : Bool) (f : Comparison) : Comparison :=
  if condition then f else answer false

def andThen (f g : Comparison) : Comparison := fun b ↦
  match f b with
  | (true, b) => g b
  | (false, b) => (false, b)

/-- Two lists of one length, element by element up to the first that differ. -/
def pairwise {α : Type} (f : α → α → Comparison) (rs as : List α) : Comparison :=
  onlyIf (rs.length = as.length) ((List.zipWith f rs as).foldr andThen (answer true))

end Comparison

/-- Binds a type parameter, or compares the type with the one it stands for. -/
def Bindings.bind (owner name : String) (d : Descriptor) : Comparison := fun b ↦
  match b.lookup (owner, name) with
  | some bound => (bound = d, b)
  | none => (true, ((owner, name), d) :: b)

section

open Comparison

variable (unify : Descriptor → Descriptor → Comparison)

def unifySignature (r a : Signature) : Comparison :=
  onlyIf (r.name = a.name ∧ r.variadic = a.variadic)
    (andThen (pairwise unify r.params a.params) (pairwise unify r.results a.results))

def unifyField (r a : Field) : Comparison := onlyIf (r.name = a.name) (unify r.type a.type)

def unifyMethodSets (r a : MethodSet) : Comparison :=
  andThen (pairwise (unifySignature unify) r.methods a.methods)
    (pairwise unify r.unexpanded a.unexpanded)

/-- One level of a required and an actual type, with `unify` for the types inside them. -/
def unifyLevel (shapes : Shapes) (r a : Descriptor) : Comparison :=
  if r = a && !r.mentionsParam then answer true else
  match r, a with
  | .param name owner, a => Bindings.bind owner name a
  | .named m rs, .named n as => onlyIf (m = n) (pairwise unify rs as)
  | .pointer r, .pointer a => unify r a
  | .slice r, .slice a => unify r a
  | .array m r, .array n a => onlyIf (m = n) (unify r a)
  | .map k v, .map l w => andThen (unify k l) (unify v w)
  | .chan m r, .chan n a => onlyIf (m = n) (unify r a)
  | .func ps rs v, .func qs as w =>
    onlyIf (v = w) (andThen (pairwise unify ps qs) (pairwise unify rs as))
  | .interface ms es, .interface ns fs =>
    unifyMethodSets unify (.ofElements shapes ms es) (.ofElements shapes ns fs)
  | .struct rs, .struct as => pairwise (unifyField unify) rs as
  | _, _ => answer false

end

/-- Compares a required with an actual type down to `depth` levels. Inline interfaces can reach each
other through the interfaces they embed, so the types alone do not bound the comparison. -/
def unify (shapes : Shapes) : (depth : Nat) → Descriptor → Descriptor → Comparison
  | 0 => fun _ _ ↦ .answer false
  | depth + 1 => unifyLevel (unify shapes depth) shapes

def comparisonLimit : Nat := 512

inductive ReceiverPolicy where
  | union
  | valueOnly
  deriving DecidableEq, Repr

def ReceiverPolicy.text : ReceiverPolicy → String
  | union => "union"
  | valueOnly => "value-only"

def ReceiverPolicy.ofText? : String → Option ReceiverPolicy
  | "union" => some union
  | "value-only" => some valueOnly
  | _ => none

def ReceiverPolicy.admits : ReceiverPolicy → ReceiverForm → Bool
  | valueOnly, .pointer => false
  | _, _ => true

/-- A method of a type that may be the one an interface requires. -/
structure Candidate where
  id : MethodId
  signature : Signature
  form : ReceiverForm

structure Link where
  required : String
  method : MethodId
  deriving DecidableEq, Repr

structure Satisfaction where
  needsPointer : Bool := false
  links : List Link := []
  deriving DecidableEq, Repr

def Satisfaction.cons (s : Signature) (c : Candidate) (rest : Satisfaction) : Satisfaction where
  needsPointer := c.form == .pointer || rest.needsPointer
  links := ⟨s.name, c.id⟩ :: rest.links

/-- Links each required method to the candidate of its name; all of them share the bindings. -/
def satisfy (shapes : Shapes) (policy : ReceiverPolicy) (candidates : List Candidate) :
    Bindings → List Signature → Option Satisfaction
  | _, [] => some {}
  | b, s :: ss => do
    let c ← candidates.find? (·.signature.name == s.name)
    guard (policy.admits c.form)
    let (same, b) := unifySignature (unify shapes comparisonLimit) s c.signature b
    guard same
    let rest ← satisfy shapes policy candidates b ss
    return rest.cons s c

end Conformance
