import Conformance.Json.Layout
import Conformance.Report

namespace Conformance

def Location.record (l : Location) : Datum :=
  .table [("file", .text l.file), ("line", .int l.line)]

def Lens.Subject.record : Lens.Subject → Datum
  | interface name => .table [("kind", .text "interface"), ("name", .text name)]
  | interfaceMethod owner method =>
    .table
      [("kind", .text "interface_method"), ("interface", .text owner), ("method", .text method)]
  | type name => .table [("kind", .text "type"), ("name", .text name)]
  | typeMethod receiver method =>
    .table [("kind", .text "type_method"), ("receiver", .text receiver), ("method", .text method)]

def Lens.record (l : Lens) : Datum :=
  .table
    [("target", l.subject.record), ("location", (l.location.map (·.record)).getD .null),
     ("label", .text l.label), ("targets", .list (l.targets.map .text))]

def EdgeSet.Statistics.record (s : EdgeSet.Statistics) : Datum :=
  .table
    [("interfaces", .int s.interfaces), ("types", .int s.types), ("edges", .int s.edges),
     ("pointer_edges", .int s.pointerEdges),
     ("unimplemented_interfaces", .list (s.unimplementedInterfaces.map .text)),
     ("types_without_interfaces", .list (s.typesWithoutInterfaces.map .text))]

namespace Report

def Implementation.record (i : Implementation) : Datum :=
  .table
    [("interface", .text i.interface), ("type", .text i.type),
     ("needs_pointer", .bool i.needsPointer),
     ("methods", .list (i.methods.map fun (required, method) ↦
       .list [.text required, .text method]))]

def record (r : Report) : Datum :=
  .table
    [("statistics", r.statistics.record),
     ("implementations", .list (r.implementations.map (·.record))),
     ("lenses", .list (r.lenses.map (·.record)))]

def json (r : Report) : String := Json.layout 0 r.record ++ "\n"

end Report

end Conformance
