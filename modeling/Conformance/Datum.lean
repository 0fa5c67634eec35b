namespace Conformance

inductive Datum where
  | null
  | bool (b : Bool)
  | int (i : Int)
  /-- A number with a fraction or an exponent, as it is written. -/
  | real (literal : String)
  | moment (literal : String)
  | text (s : String)
  | list (items : List Datum)
  /-- Entries in the order of the file; a format may let keys repeat. -/
  | table (entries : List (String × Datum))

namespace Datum

def bool? : Datum → Option Bool
  | bool b => some b
  | _ => none

def nat? : Datum → Option Nat
  | int (.ofNat n) => some n
  | _ => none

def text? : Datum → Option String
  | text s => some s
  | _ => none

/-- The fields of a record: the entries of a table with no other and no repeated keys, or the items
of a list in the order of the names. -/
def fields? (names : List String) : Datum → Option (List (String × Datum))
  | table entries =>
    let keys := entries.map (·.1)
    if keys.all names.contains && decide keys.Nodup then some entries else none
  | list items => if items.length ≤ names.length then some (names.zip items) else none
  | _ => none

end Datum

end Conformance
