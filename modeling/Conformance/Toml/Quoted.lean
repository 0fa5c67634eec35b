import Conformance.Decimal
import Conformance.Reader

namespace Conformance.Toml

/-- Tabs are the only control characters that strings and comments hold. -/
def isPrintable (c : Char) : Bool := c == '\t' || (0x20 ≤ c.toNat && c.toNat != 0x7F)

def isSurrogate (n : Nat) : Bool := 0xD800 ≤ n && n < 0xE000

def codePoint? (digits : List Char) : Option Char := do
  let n ← Decimal.nat? 16 digits
  if isSurrogate n || 0x10FFFF < n then none else some (.ofNat n)

def unescape? : Char → Option Char
  | '"' => some '"'
  | '\\' => some '\\'
  | 'b' => some '\x08'
  | 'e' => some '\x1b'
  | 'f' => some '\x0c'
  | 'n' => some '\n'
  | 'r' => some '\r'
  | 't' => some '\t'
  | _ => none

def escape : Reader Char Char
  | 'x' :: a :: b :: cs => (codePoint? [a, b]).map (·, cs)
  | 'u' :: a :: b :: c :: d :: cs => (codePoint? [a, b, c, d]).map (·, cs)
  | 'U' :: a :: b :: c :: d :: e :: f :: g :: h :: cs =>
    (codePoint? [a, b, c, d, e, f, g, h]).map (·, cs)
  | c :: cs => (unescape? c).map (·, cs)
  | [] => none

def basicRound : Reader Char (List Char × Bool)
  | '"' :: cs => some (([], false), cs)
  | '\\' :: cs => (escape cs).map fun (c, cs) ↦ (([c], true), cs)
  | c :: cs => if isPrintable c then some (([c], true), cs) else none
  | [] => none

def literalRound : Reader Char (List Char × Bool)
  | '\'' :: cs => some (([], false), cs)
  | c :: cs => if isPrintable c then some (([c], true), cs) else none
  | [] => none

/-- The rest after a backslash that ends its line: the next character that is no blank. -/
def continueLine (cs : List Char) : Option (List Char) :=
  let isBlank (c : Char) : Bool := c == ' ' || c == '\t'
  match cs.dropWhile isBlank with
  | '\n' :: cs => some (skipBlank cs)
  | '\r' :: '\n' :: cs => some (skipBlank cs)
  | _ => none
where
  skipBlank : List Char → List Char
    | ' ' :: cs | '\t' :: cs | '\n' :: cs => skipBlank cs
    | '\r' :: '\n' :: cs => skipBlank cs
    | cs => cs

/-- Closing quotes; up to two quotes before them belong to the string. -/
def closing (q : Char) (cs : List Char) : Option (List Char × List Char) :=
  let quotes := (cs.takeWhile (· == q)).length
  if quotes < 3 then none else some (.replicate (min (quotes - 3) 2) q, cs.drop (min quotes 5))

/-- A character of a string over lines; a line break is a line feed however it is written. -/
def plainLines : Reader Char (List Char × Bool)
  | '\n' :: cs => some ((['\n'], true), cs)
  | '\r' :: '\n' :: cs => some ((['\n'], true), cs)
  | c :: cs => if isPrintable c then some (([c], true), cs) else none
  | [] => none

def basicLinesRound : Reader Char (List Char × Bool) := fun cs ↦
  match closing '"' cs with
  | some (quotes, cs) => some ((quotes, false), cs)
  | none =>
    match cs with
    | '\\' :: cs =>
      match continueLine cs with
      | some cs => some (([], true), cs)
      | none => (escape cs).map fun (c, cs) ↦ (([c], true), cs)
    | cs => plainLines cs

def literalLinesRound : Reader Char (List Char × Bool) := fun cs ↦
  match closing '\'' cs with
  | some (quotes, cs) => some ((quotes, false), cs)
  | none => plainLines cs

def dropBreak : List Char → List Char
  | '\n' :: cs => cs
  | '\r' :: '\n' :: cs => cs
  | cs => cs

def lineString : Reader Char (List Char)
  | '"' :: cs => Reader.rounds basicRound cs
  | '\'' :: cs => Reader.rounds literalRound cs
  | _ => none

def string : Reader Char (List Char)
  | '"' :: '"' :: '"' :: cs => Reader.rounds basicLinesRound (dropBreak cs)
  | '\'' :: '\'' :: '\'' :: cs => Reader.rounds literalLinesRound (dropBreak cs)
  | cs => lineString cs

end Conformance.Toml
