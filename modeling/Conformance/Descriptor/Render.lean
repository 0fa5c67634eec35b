import Conformance.Descriptor
import Conformance.Text.Join

namespace Conformance

def markVariadic (variadic : Bool) : List String → List String
  | [] => []
  | [s] => [if variadic then "..." ++ s else s]
  | s :: t :: ss => s :: markVariadic variadic (t :: ss)

def parenthesized (items : List String) : String := "(" ++ Text.join ", " items ++ ")"

def Direction.lead : Direction → String
  | .both => "chan "
  | .send => "chan<- "
  | .recv => "<-chan "

/-- Results follow the parameters; parentheses are left out around one result that is no function.
-/
def resultsText (results : List Descriptor) (texts : List String) : String :=
  match results, texts with
  | [], _ => ""
  | [.func ..], _ => " " ++ parenthesized texts
  | [_], [s] => " " ++ s
  | _, _ => " " ++ parenthesized texts

mutual

def Descriptor.render : Descriptor → String
  | .named name [] => name
  | .named name (a :: as) => name ++ "[" ++ Text.join ", " (a.render :: renderAll as) ++ "]"
  | .param name _ => name
  | .pointer e => "*" ++ e.render
  | .slice e => "[]" ++ e.render
  | .array len e => "[" ++ len ++ "]" ++ e.render
  | .map k v => "map[" ++ k.render ++ "]" ++ v.render
  | .chan dir e => dir.lead ++ e.render
  | .func ps rs variadic =>
    "func" ++ parenthesized (markVariadic variadic (renderAll ps)) ++ resultsText rs (renderAll rs)
  | .interface ms es =>
    "interface\x7b" ++ Text.join "; " (renderAll es ++ renderSignatures ms) ++ "\x7d"
  | .struct fs => "struct\x7b" ++ Text.join "; " (renderFields fs) ++ "\x7d"

def renderAll : List Descriptor → List String
  | [] => []
  | d :: ds => d.render :: renderAll ds

def Signature.render : Signature → String
  | ⟨name, ps, rs, variadic⟩ =>
    name ++ parenthesized (markVariadic variadic (renderAll ps)) ++ resultsText rs (renderAll rs)

def renderSignatures : List Signature → List String
  | [] => []
  | s :: ss => s.render :: renderSignatures ss

def Field.render : Field → String
  | ⟨some name, d⟩ => name ++ " " ++ d.render
  | ⟨none, d⟩ => d.render

def renderFields : List Field → List String
  | [] => []
  | f :: fs => f.render :: renderFields fs

end

@[simp]
theorem renderAll_eq_map (ds : List Descriptor) : renderAll ds = ds.map Descriptor.render := by
  induction ds with
  | nil => rfl
  | cons d ds ih => simp [renderAll, ih]

@[simp]
theorem renderSignatures_eq_map (ss : List Signature) :
    renderSignatures ss = ss.map Signature.render := by
  induction ss with
  | nil => rfl
  | cons s ss ih => simp [renderSignatures, ih]

@[simp]
theorem renderFields_eq_map (fs : List Field) : renderFields fs = fs.map Field.render := by
  induction fs with
  | nil => rfl
  | cons f fs ih => simp [renderFields, ih]

end Conformance
