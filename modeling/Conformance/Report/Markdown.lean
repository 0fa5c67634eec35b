import Conformance.Report

namespace Conformance.Report

def lines (ls : List String) : String := String.join (ls.map (· ++ "\n"))

def summaryRow (metric : String) (value : Nat) : String :=
  "| " ++ metric ++ " | " ++ toString value ++ " |"

def Implementation.row (i : Implementation) : String :=
  "| \x60" ++ i.interface ++ "\x60 | \x60" ++ i.type ++ "\x60 | " ++
    (if i.needsPointer then "pointer" else "value") ++ " |"

def part (title : String) (body : List String) : List String :=
  if body.isEmpty then [] else ["## " ++ title, ""] ++ body ++ [""]

def tableOf (heading : List String) (rows : List String) : List String :=
  if rows.isEmpty then [] else heading ++ rows

def markdown (r : Report) : String :=
  let s := r.statistics
  lines <|
    ["# Interface Implementation Report", ""] ++
      part "Summary"
        (tableOf ["| Metric | Value |", "|--------|-------|"]
          [summaryRow "Interfaces" s.interfaces, summaryRow "Concrete Types" s.types,
           summaryRow "Implementations" s.edges,
           summaryRow "Via Pointer Receivers" s.pointerEdges]) ++
      part "Implementations"
        (tableOf ["| Interface | Type | Receiver |", "|-----------|------|----------|"]
          (r.implementations.map (·.row))) ++
      part "Interfaces Without Implementations"
        (s.unimplementedInterfaces.map fun name ↦ "- \x60" ++ name ++ "\x60")

end Conformance.Report
