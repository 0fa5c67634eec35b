import Conformance.Token.Scan

namespace Conformance

structure Fault where
  position : Option Nat
  detail : String
  deriving DecidableEq, Repr

def Fault.inText (text : String) (f : Fault) : SyntaxError :=
  ⟨text, f.position.getD text.utf8ByteSize, f.detail⟩

abbrev Parser (α : Type) := List Placed → Except Fault (α × List Placed)

namespace Parser

def position (ts : List Placed) : Option Nat := ts.head?.map (·.start)

def describeNext : List Placed → String
  | [] => "end of input"
  | t :: _ => t.token.describe

def unexpected (expected : String) (ts : List Placed) : Fault :=
  ⟨position ts, "expected " ++ expected ++ ", found " ++ describeNext ts⟩

def startsWith (m : Mark) : List Placed → Bool
  | t :: _ => t.token == .mark m
  | [] => false

def expect (m : Mark) : Parser Unit
  | ⟨.mark n, start, stop⟩ :: ts =>
    if n = m then .ok ((), ts)
    else .error (unexpected (Token.mark m).describe (⟨.mark n, start, stop⟩ :: ts))
  | ts => .error (unexpected (Token.mark m).describe ts)

def identifier : Parser String
  | ⟨.ident name, _, _⟩ :: ts => .ok (name, ts)
  | ts => .error (unexpected "identifier" ts)

/-- Rounds of a parser that tells what it read and whether another round follows. -/
def roundsUpTo {α : Type} (round : Parser (List α × Bool)) : Nat → Parser (List α)
  | 0 => fun ts ↦ .ok ([], ts)
  | n + 1 => fun ts ↦ do
    let ((xs, more), ts) ← round ts
    if more then
      let (ys, ts) ← roundsUpTo round n ts
      return (xs ++ ys, ts)
    return (xs, ts)

/-- As many rounds as `round` asks for; each of them has to read a token, so the tokens bound them.
-/
def rounds {α : Type} (round : Parser (List α × Bool)) : Parser (List α) := fun ts ↦
  roundsUpTo round (ts.length + 1) ts

def run {α : Type} (p : Parser α) (text : String) : Except SyntaxError α := do
  let ts ← Token.ofText text
  match p ts with
  | .error f => .error (f.inText text)
  | .ok (a, []) => .ok a
  | .ok (_, t :: ts) =>
    .error <| Fault.inText text
      ⟨position (t :: ts), "unexpected " ++ t.token.describe ++ " after end of declaration"⟩

end Parser

end Conformance
