import Conformance.Text.Join

namespace Conformance

inductive Problem where
  /-- The embedded interfaces lead back to `interface`; it stands at both ends of the cycle. -/
  | cyclicComposition (interface : String) (cycle : List String)
  | duplicateDeclaration (name : String)
  | unresolvedType (type declaration : String)
  deriving DecidableEq, Repr

namespace Problem

def message : Problem → String
  | cyclicComposition _ cycle => "cyclic interface composition: " ++ Text.join " -> " cycle
  | duplicateDeclaration name => "duplicate declaration of `" ++ name ++ "`"
  | unresolvedType type declaration =>
    "unresolved type `" ++ type ++ "` referenced by `" ++ declaration ++ "`"

def code : Problem → String
  | cyclicComposition .. => "E030"
  | duplicateDeclaration _ => "E031"
  | unresolvedType .. => "E032"

def addNew (ps : List Problem) (p : Problem) : List Problem := if p ∈ ps then ps else ps ++ [p]

def reportLine (p : Problem) : String := "error [" ++ p.code ++ "] " ++ p.message ++ "\n"

def report (ps : List Problem) : String :=
  match ps with
  | [] => "ok no problems found\n"
  | _ => String.join (ps.map reportLine) ++ toString ps.length ++ " problem(s) found\n"

end Problem

end Conformance
