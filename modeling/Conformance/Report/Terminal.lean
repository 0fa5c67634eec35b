import Conformance.Report

namespace Conformance.Report

/-- Styles of terminal text, by the parameters of the control sequence that selects them. -/
inductive Style where
  | bold
  | dimmed
  | red
  | green
  | yellow
  | blue
  | boldBlue
  deriving DecidableEq, Repr

def Style.parameters : Style → String
  | bold => "1"
  | dimmed => "2"
  | red => "31"
  | green => "32"
  | yellow => "33"
  | blue => "34"
  | boldBlue => "1;34"

def Style.start (s : Style) : List Char := '\x1b' :: '[' :: (s.parameters ++ "m").toList

def reset : List Char := ['\x1b', '[', '0', 'm']

/-- The text with the style selected again after each reset in it. -/
def resume (style : Style) : List Char → List Char
  | [] => []
  | '\x1b' :: '[' :: '0' :: 'm' :: cs => reset ++ style.start ++ resume style cs
  | c :: cs => c :: resume style cs

def styled (color : Bool) (style : Style) (s : String) : String :=
  if color then .ofList (style.start ++ resume style s.toList ++ reset) else s

def lensLine (color : Bool) (l : Lens) : String :=
  let position :=
    match l.location with
    | some place => place.render ++ " "
    | none => ""
  "  " ++ styled color .dimmed position ++ styled color .yellow l.subject.text ++ " " ++ l.label ++
    "\n"

def terminal (color : Bool) (r : Report) : String :=
  let s := r.statistics
  styled color .boldBlue "Interface Implementation Report" ++ "\n" ++
    styled color .blue "===============================" ++ "\n\n" ++
    styled color .bold "Summary:" ++ "\n" ++
    "  Interfaces: " ++ toString s.interfaces ++ "\n" ++
    "  Concrete types: " ++ toString s.types ++ "\n" ++
    "  Implementations: " ++ styled color .green (toString s.edges) ++ " (" ++
    toString s.pointerEdges ++ " via pointer receivers)\n\n" ++
    (if r.lenses.isEmpty then "" else
      styled color .bold "Lenses:" ++ "\n" ++ String.join (r.lenses.map (lensLine color)) ++
        "\n") ++
    if s.unimplementedInterfaces.isEmpty then "" else
      styled color .red "Unimplemented:" ++ " " ++ Text.join ", " s.unimplementedInterfaces ++ "\n"

end Conformance.Report
