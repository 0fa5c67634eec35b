import Conformance.Program.Resolution

namespace Conformance

/-- The methods with one more, in the order of their names; the first method of a name stays. -/
def insertMethod (s : Signature) : List Signature → List Signature
  | [] => [s]
  | t :: ts =>
    if s.name < t.name then s :: t :: ts
    else if s.name = t.name then t :: ts
    else t :: insertMethod s ts

namespace Flattening

inductive Status where
  | unvisited
  | entered
  | done (required : Option (List Signature))

structure Walk where
  statuses : List Status
  /-- The entered interfaces, the outermost first. -/
  path : List InterfaceId := []
  reported : List (List InterfaceId) := []
  problems : List Problem := []
  /-- Whether a visit was cut off because it lay too deep. -/
  cutOff : Bool := false

def sameMembers (xs ys : List InterfaceId) : Bool :=
  xs.all ys.contains && ys.all xs.contains

section

variable (names : List String)

def nameOf (id : InterfaceId) : String := names.getD id ""

/-- Reports the cycle that an entered interface closes, once for the same members. -/
def Walk.reportCycle (w : Walk) (id : InterfaceId) : Walk :=
  let members := w.path.dropWhile (· != id)
  if w.reported.any (sameMembers members) then w else
    { w with
      reported := w.reported ++ [members]
      problems :=
        w.problems ++
          [.cyclicComposition (nameOf names id) ((members ++ [id]).map (nameOf names))] }

/-- Methods gathered for an interface, and whether nothing is missing from them. -/
structure Gathered where
  methods : List Signature := []
  complete : Bool := true
  walk : Walk

def Gathered.conflict (g : Gathered) (owner : InterfaceId) (s : Signature) : Gathered :=
  { g with
    complete := false
    walk :=
      { g.walk with
        problems :=
          g.walk.problems ++ [.duplicateDeclaration (nameOf names owner ++ "." ++ s.name)] } }

def Gathered.declare (owner : InterfaceId) (g : Gathered) (s : Signature) : Gathered :=
  if g.methods.any (·.name == s.name) then g.conflict names owner s
  else { g with methods := insertMethod s g.methods }

def Gathered.inherit (owner : InterfaceId) (g : Gathered) (s : Signature) : Gathered :=
  match g.methods.find? (·.name == s.name) with
  | some t => if t = s then g else g.conflict names owner s
  | none => { g with methods := insertMethod s g.methods }

/-- The required set of an interface, and the walk after it. Visits nest no deeper than `depth`. -/
def visit (interfaces : List ResolvedInterface) :
    (depth : Nat) → Walk → InterfaceId → Option (List Signature) × Walk
  | 0, w, _ => (none, { w with cutOff := true })
  | depth + 1, w, id =>
    match w.statuses[id]?, interfaces[id]? with
    | some (.done required), _ => (required, w)
    | some .entered, _ => (none, w.reportCycle names id)
    | some .unvisited, some i =>
      let w := { w with statuses := w.statuses.set id .entered, path := w.path ++ [id] }
      let own := i.methods.foldl (Gathered.declare names id) { walk := w }
      let all := i.embeds.foldl
        (fun g e ↦
          match visit interfaces depth g.walk e with
          | (none, w) => { g with complete := false, walk := w }
          | (some inherited, w) =>
            inherited.foldl (Gathered.inherit names id) { g with walk := w })
        own
      let required := if all.complete then some all.methods else none
      (required,
        { all.walk with
          statuses := all.walk.statuses.set id (.done required)
          path := all.walk.path.dropLast })
    | _, _ => (none, w)

def visitAll (interfaces : List ResolvedInterface) (depth : Nat) (w : Walk) :
    List InterfaceId → List (Option (List Signature)) × Walk
  | [] => ([], w)
  | id :: ids =>
    let (required, w) := visit names interfaces depth w id
    let (sets, w) := visitAll interfaces depth w ids
    (required :: sets, w)

def run (interfaces : List ResolvedInterface) (depth : Nat) :
    List (Option (List Signature)) × Walk :=
  visitAll names interfaces depth { statuses := interfaces.map fun _ ↦ .unvisited }
    (List.range interfaces.length)

end

end Flattening

/-- The required set of each interface, and the problems found on the way. On a walk no interface
is entered twice, so this depth is never reached. -/
def flatten (names : List String) (interfaces : List ResolvedInterface) :
    List (Option (List Signature)) × List Problem :=
  let (sets, walk) := Flattening.run names interfaces (interfaces.length + 1)
  (sets, walk.problems)

namespace Program

def displayNames (p : Program) : List String := p.interfaces.map (·.displayName)

def flattening (p : Program) : List (Option (List Signature)) × List Problem :=
  flatten p.displayNames p.resolvedInterfaces

def requiredSets (p : Program) : List (Option (List Signature)) := p.flattening.1

/-- Everything that is wrong with a program: its names, what they refer to, its embeddings. -/
def problems (p : Program) : List Problem :=
  p.reportUnknown p.namingProblems ++ p.flattening.2

end Program

end Conformance
