import Conformance.Datum
import Conformance.Decimal

namespace Conformance.Toml

/-- The digits of a number; each underscore stands between two of them. -/
def digits? (base : Nat) (cs : List Char) : Option (List Char) :=
  if cs.head? = some '_' ∨ cs.getLast? = some '_' ∨ hasDouble cs then none else
  let ds := cs.filter (· != '_')
  if !ds.isEmpty && ds.all (fun c ↦ (Decimal.digitOf? base c).isSome) then some ds else none
where
  hasDouble : List Char → Bool
    | '_' :: '_' :: _ => true
    | _ :: cs => hasDouble cs
    | [] => false

def wholeDigits? (cs : List Char) : Option (List Char) := do
  let ds ← digits? 10 cs
  if ds.head? = some '0' ∧ cs ≠ ['0'] then none else some ds

def sign : List Char → Bool × List Char
  | '-' :: cs => (true, cs)
  | '+' :: cs => (false, cs)
  | cs => (false, cs)

def inRange? (i : Int) : Option Datum :=
  if -(Decimal.ofBits 63 : Int) ≤ i ∧ i < Decimal.ofBits 64 then some (.int i) else none

def int? (cs : List Char) : Option Datum :=
  let based (base : Nat) (cs : List Char) : Option Datum := do
    inRange? (← Decimal.nat? base (← digits? base cs))
  match cs with
  | '0' :: 'x' :: cs => based 16 cs
  | '0' :: 'o' :: cs => based 8 cs
  | '0' :: 'b' :: cs => based 2 cs
  | cs => do
    let (negative, cs) := sign cs
    let n ← Decimal.nat? 10 (← wholeDigits? cs)
    inRange? (if negative then -n else n)

def cut (isMark : Char → Bool) (cs : List Char) : List Char × Option (List Char) :=
  match cs.dropWhile fun c ↦ !isMark c with
  | [] => (cs, none)
  | _ :: rest => (cs.takeWhile fun c ↦ !isMark c, some rest)

def real? (literal : List Char) : Option Datum := do
  let (_, cs) := sign literal
  let real := Datum.real (.ofList literal)
  if cs = "inf".toList ∨ cs = "nan".toList then return real
  let (mantissa, power) := cut (fun c ↦ c == 'e' || c == 'E') cs
  let (whole, fraction) := cut (· == '.') mantissa
  if power.isNone && fraction.isNone then none
  let whole ← wholeDigits? whole
  let fraction ← match fraction with
    | some cs => digits? 10 cs
    | none => some []
  let shift : Int ← match power with
    | some cs => do
      let (negative, cs) := sign cs
      let n ← Decimal.nat? 10 (← digits? 10 cs)
      some (if negative then -(n : Int) else n)
    | none => some 0
  let significand := (Decimal.nat? 10 (whole ++ fraction)).getD 0
  if Decimal.overflows significand (shift - fraction.length) then none else some real

def pair? (limit : Nat) (a b : Char) : Option Nat :=
  (Decimal.nat? 10 [a, b]).filter (· ≤ limit)

def isLeapYear (year : Nat) : Bool := year % 4 == 0 && (year % 100 != 0 || year % 400 == 0)

def daysOfMonth (year month : Nat) : Nat :=
  if month = 2 then if isLeapYear year then 29 else 28
  else if month ∈ [4, 6, 9, 11] then 30 else 31

def isDate : List Char → Bool
  | [a, b, c, d, '-', e, f, '-', g, h] =>
    match Decimal.nat? 10 [a, b, c, d], pair? 12 e f, pair? 31 g h with
    | some year, some month, some day => 0 < month && 0 < day && day ≤ daysOfMonth year month
    | _, _, _ => false
  | _ => false

def isTime : List Char → Bool
  | [a, b, ':', c, d] => (pair? 23 a b).isSome && (pair? 59 c d).isSome
  | a :: b :: ':' :: c :: d :: ':' :: e :: f :: rest =>
    (pair? 23 a b).isSome && (pair? 59 c d).isSome && (pair? 60 e f).isSome &&
      match rest with
      | [] => true
      | '.' :: ds => !ds.isEmpty && ds.all Char.isDigit
      | _ => false
  | _ => false

def isOffset : List Char → Bool
  | [a, b, ':', c, d] =>
    match pair? 24 a b, pair? 59 c d with
    | some hours, some minutes => hours * 60 + minutes ≤ 1440
    | _, _ => false
  | _ => false

def isTimeWithOffset (cs : List Char) : Bool :=
  match cut (fun c ↦ c == 'Z' || c == 'z') cs with
  | (time, some rest) => rest.isEmpty && isTime time
  | (_, none) =>
    match cut (fun c ↦ c == '+' || c == '-') cs with
    | (time, some offset) => isTime time && isOffset offset
    | (time, none) => isTime time

def isMoment (cs : List Char) : Bool :=
  isDate cs || isTime cs ||
    match cs.drop 10 with
    | c :: time =>
      (c == 'T' || c == 't' || c == ' ') && isDate (cs.take 10) && isTimeWithOffset time
    | [] => false

def scalar? (cs : List Char) : Option Datum :=
  if cs = "true".toList then some (.bool true)
  else if cs = "false".toList then some (.bool false)
  else if isMoment cs then some (.moment (.ofList cs))
  else (int? cs).or (real? cs)

end Conformance.Toml
