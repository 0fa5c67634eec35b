namespace Conformance

abbrev Reader (τ α : Type) := List τ → Option (α × List τ)

namespace Reader

variable {τ α : Type}

def literal [DecidableEq τ] : List τ → List τ → Option (List τ)
  | [], ts => some ts
  | w :: ws, t :: ts => if w = t then literal ws ts else none
  | _ :: _, [] => none

def run (p : τ → Bool) (ts : List τ) : List τ × List τ := (ts.takeWhile p, ts.dropWhile p)

/-- Rounds of a reader that tells what it read and whether another round follows, at most
`limit` of them. -/
def roundsUpTo (round : Reader τ (List α × Bool)) : (limit : Nat) → Reader τ (List α)
  | 0 => fun _ ↦ none
  | limit + 1 => fun ts ↦ do
    let ((xs, more), ts) ← round ts
    if more then
      let (ys, ts) ← roundsUpTo round limit ts
      return (xs ++ ys, ts)
    return (xs, ts)

/-- As many rounds as `round` asks for; each of them has to read something. -/
def rounds (round : Reader τ (List α × Bool)) : Reader τ (List α) := fun ts ↦
  roundsUpTo round (ts.length + 1) ts

end Reader

end Conformance
