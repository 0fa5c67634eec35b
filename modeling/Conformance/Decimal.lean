namespace Conformance.Decimal

def ofDigits (base : Nat) (digits : List Nat) : Nat := digits.foldl (fun n d ↦ n * base + d) 0

def digit? (c : Char) : Option Nat :=
  if '0' ≤ c ∧ c ≤ '9' then some (c.toNat - '0'.toNat)
  else if 'a' ≤ c ∧ c ≤ 'f' then some (c.toNat - 'a'.toNat + 10)
  else if 'A' ≤ c ∧ c ≤ 'F' then some (c.toNat - 'A'.toNat + 10)
  else none

def digitOf? (base : Nat) (c : Char) : Option Nat := (digit? c).filter (· < base)

def nat? (base : Nat) (cs : List Char) : Option Nat :=
  if cs.isEmpty then none else (cs.mapM (digitOf? base)).map (ofDigits base)

def ofBits (bits : Nat) : Nat := Nat.pow 2 bits

/-- The least number that a double-precision number rounds to infinity. -/
def doubleLimit : Nat := ofBits 1024 - ofBits 970

/-- Whether `significand * 10 ^ exponent` is too large for double precision. Only numbers of 309
digits need the comparison. -/
def overflows (significand : Nat) (exponent : Int) : Bool :=
  if significand = 0 then false else
  let magnitude : Int := (toString significand).length + exponent
  if magnitude ≠ 309 then decide (309 < magnitude)
  else if 0 ≤ exponent then decide (doubleLimit ≤ significand * Nat.pow 10 exponent.toNat)
  else decide (doubleLimit * Nat.pow 10 (-exponent).toNat ≤ significand)

end Conformance.Decimal
