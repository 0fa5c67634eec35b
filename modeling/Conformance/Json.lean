import Conformance.Datum
import Conformance.Decimal
import Conformance.Reader

namespace Conformance.Json

def isSpace (c : Char) : Bool := c == ' ' || c == '\t' || c == '\n' || c == '\r'

def skipSpace (cs : List Char) : List Char := cs.dropWhile isSpace

def unescape? : Char → Option Char
  | '"' => some '"'
  | '\\' => some '\\'
  | '/' => some '/'
  | 'b' => some '\x08'
  | 'f' => some '\x0c'
  | 'n' => some '\n'
  | 'r' => some '\r'
  | 't' => some '\t'
  | _ => none

def isHighSurrogate (n : Nat) : Bool := 0xD800 ≤ n && n < 0xDC00

def isLowSurrogate (n : Nat) : Bool := 0xDC00 ≤ n && n < 0xE000

def stringBody : Reader Char (List Char)
  | [] => none
  | '"' :: cs => some ([], cs)
  | '\\' :: 'u' :: a :: b :: c :: d :: cs => do
    let high ← Decimal.nat? 16 [a, b, c, d]
    if isLowSurrogate high then none
    else if isHighSurrogate high then
      match cs with
      | '\\' :: 'u' :: e :: f :: g :: h :: cs => do
        let low ← Decimal.nat? 16 [e, f, g, h]
        if !isLowSurrogate low then none
        let (text, rest) ← stringBody cs
        return (.ofNat (0x10000 + (high - 0xD800) * 0x400 + (low - 0xDC00)) :: text, rest)
      | _ => none
    else
      let (text, rest) ← stringBody cs
      return (.ofNat high :: text, rest)
  | '\\' :: c :: cs => do
    let c ← unescape? c
    let (text, rest) ← stringBody cs
    return (c :: text, rest)
  | c :: cs =>
    if c.toNat < 0x20 then none else do
      let (text, rest) ← stringBody cs
      return (c :: text, rest)

def wholePart (cs : List Char) : Option (List Char × List Char) :=
  match Reader.run Char.isDigit cs with
  | ([], _) => none
  | (['0'], rest) => some (['0'], rest)
  | ('0' :: _, _) => none
  | part => some part

def fraction : List Char → Option (List Char × List Char)
  | '.' :: cs =>
    match Reader.run Char.isDigit cs with
    | ([], _) => none
    | part => some part
  | cs => some ([], cs)

def exponent : List Char → Option (Option (Bool × List Char) × List Char)
  | c :: cs =>
    if c = 'e' ∨ c = 'E' then
      let (negative, cs) : Bool × List Char :=
        match cs with
        | '-' :: cs => (true, cs)
        | '+' :: cs => (false, cs)
        | cs => (false, cs)
      match Reader.run Char.isDigit cs with
      | ([], _) => none
      | (digits, rest) => some (some (negative, digits), rest)
    else some (none, c :: cs)
  | [] => some (none, [])

/-- The integer, if 64 bits hold it and it is not a negative zero. -/
def int? (negative : Bool) (n : Nat) : Option Int :=
  if negative then if 0 < n ∧ n ≤ Decimal.ofBits 63 then some (-n) else none
  else if n < Decimal.ofBits 64 then some n else none

def number (cs : List Char) : Option (Datum × List Char) := do
  let negative := cs.head? == some '-'
  let (whole, rest) ← wholePart (if negative then cs.tail else cs)
  let (decimals, rest) ← fraction rest
  let (power, rest) ← exponent rest
  let significand := (Decimal.nat? 10 (whole ++ decimals)).getD 0
  let shift : Int :=
    match power with
    | some (true, digits) => -((Decimal.nat? 10 digits).getD 0)
    | some (false, digits) => (Decimal.nat? 10 digits).getD 0
    | none => 0
  let integral := decimals.isEmpty && power.isNone
  match if integral then int? negative significand else none with
  | some i => return (.int i, rest)
  | none =>
    if Decimal.overflows significand (shift - decimals.length) then none
    return (.real (.ofList (cs.take (cs.length - rest.length))), rest)

section

variable (value : Reader Char Datum)

def items : Reader Char (List Datum) := Reader.rounds fun cs ↦ do
  let (item, cs) ← value (skipSpace cs)
  match skipSpace cs with
  | ',' :: cs => return (([item], true), cs)
  | ']' :: cs => return (([item], false), cs)
  | _ => none

def entries : Reader Char (List (String × Datum)) := Reader.rounds fun cs ↦
  match skipSpace cs with
  | '"' :: cs => do
    let (key, cs) ← stringBody cs
    match skipSpace cs with
    | ':' :: cs => do
      let (item, cs) ← value (skipSpace cs)
      let entry := (String.ofList key, item)
      match skipSpace cs with
      | ',' :: cs => return (([entry], true), cs)
      | '}' :: cs => return (([entry], false), cs)
      | _ => none
    | _ => none
  | _ => none

end

/-- A value that begins here, with at most `depth` arrays and objects around one another. -/
def value : (depth : Nat) → Reader Char Datum
  | depth, cs =>
    match cs with
    | '"' :: cs => (stringBody cs).map fun (text, rest) ↦ (.text (.ofList text), rest)
    | 'n' :: cs => (Reader.literal "ull".toList cs).map (.null, ·)
    | 't' :: cs => (Reader.literal "rue".toList cs).map (.bool true, ·)
    | 'f' :: cs => (Reader.literal "alse".toList cs).map (.bool false, ·)
    | '[' :: cs =>
      match depth with
      | 0 => none
      | depth + 1 =>
        match skipSpace cs with
        | ']' :: cs => some (.list [], cs)
        | cs => (items (value depth) cs).map fun (is, rest) ↦ (.list is, rest)
    | '{' :: cs =>
      match depth with
      | 0 => none
      | depth + 1 =>
        match skipSpace cs with
        | '}' :: cs => some (.table [], cs)
        | cs => (entries (value depth) cs).map fun (es, rest) ↦ (.table es, rest)
    | cs => number cs

def nestingLimit : Nat := 127

def parse (text : String) : Option Datum := do
  let (v, rest) ← value nestingLimit (skipSpace text.toList)
  if (skipSpace rest).isEmpty then some v else none

end Conformance.Json
