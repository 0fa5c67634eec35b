import Conformance.Lens

namespace Conformance

structure Report.Implementation where
  interface : String
  type : String
  needsPointer : Bool
  methods : List (String × String)
  deriving DecidableEq, Repr

structure Report where
  statistics : EdgeSet.Statistics
  implementations : List Report.Implementation
  lenses : List Lens

namespace EdgeSet

variable (s : EdgeSet)

def implementation (e : Edge) : Report.Implementation :=
  let type := ((s.types[e.type]?).map (·.name)).getD ""
  { interface := ((s.interfaces[e.interface]?).map (·.name)).getD ""
    type
    needsPointer := e.needsPointer
    methods := e.links.map fun l ↦
      (l.required, type ++ "." ++ ((s.methods[l.method]?).map (·.signature.name)).getD "") }

def report (on : Lens.Switches) : Report where
  statistics := s.statistics
  implementations := s.edges.map s.implementation
  lenses := s.lenses on

end EdgeSet

inductive Report.Format where
  | json
  | markdown
  | terminal
  deriving DecidableEq, Repr

def Report.Format.text : Report.Format → String
  | .json => "json"
  | .markdown => "markdown"
  | .terminal => "terminal"

def Report.Format.ofText? : String → Option Report.Format
  | "json" => some .json
  | "markdown" => some .markdown
  | "terminal" => some .terminal
  | _ => none

end Conformance
