import Conformance.Datum

/-!
What decoding asks of a value. A format answers each question in its own way: in one a number is
never a text, in another every unquoted word may be one.
-/

namespace Conformance

class DataView (α : Type) where
  text? : α → Option String
  nat? : α → Option Nat
  absent? : α → Option Bool
  items? : α → Option (List α)
  fields? : List String → α → Option (List (String × α))
  /-- A text, or those fields with these names of a table that may have others. -/
  textOrFields? : List String → α → Option (String ⊕ List (String × Datum))

namespace DataView

variable {α β : Type}

def select? (names : List String) (entries : List (String × Datum)) :
    Option (List (String × Datum)) :=
  let fields := entries.filter fun e ↦ names.contains e.1
  if (fields.map (·.1)).Nodup then some fields else none

instance : DataView Datum where
  text? := Datum.text?
  nat? := Datum.nat?
  absent?
    | .null => some true
    | _ => some false
  items?
    | .list items => some items
    | _ => none
  fields? := Datum.fields?
  textOrFields? names
    | .text s => some (.inl s)
    | .table entries => (select? names entries).map .inr
    | _ => none

def required (decode : α → Option β) (fields : List (String × α)) (name : String) : Option β :=
  (fields.lookup name).bind decode

def defaulted (decode : α → Option β) (absent : β) (fields : List (String × α)) (name : String) :
    Option β :=
  match fields.lookup name with
  | some v => decode v
  | none => some absent

variable [DataView α]

def list (decode : α → Option β) (v : α) : Option (List β) := do
  let items ← items? v
  items.mapM decode

def optional (decode : α → Option β) (v : α) : Option (Option β) := do
  if ← absent? v then return none
  return some (← decode v)

end DataView

end Conformance
