import Conformance.Program.Edges
import Conformance.Settings

/-!
Work that is spread. From a number of interfaces on, the edges of different interfaces are found
side by side; `collect` brings them together in whatever order.
-/

namespace Conformance

def Settings.Parallel.spreads (s : Settings.Parallel) (count : Nat) : Bool :=
  s.enabled && decide (s.minInterfaces ≤ count)

namespace Program

variable (collect : List (List Edge) → List Edge) (p : Program)

def collectedEdges (parallel : Settings.Parallel) (policy : ReceiverPolicy) : List Edge :=
  if parallel.spreads p.interfaces.length then collect (p.partitions policy)
  else (p.partitions policy).flatten

def spreadEdges (parallel : Settings.Parallel) (policy : ReceiverPolicy) :
    Except Problem EdgeSet :=
  match p.problems with
  | problem :: _ => .error problem
  | [] =>
    .ok (.ofEdges p.interfaceNodes p.typeNodes p.methodNodes
      (p.collectedEdges collect parallel policy))

end Program

end Conformance
