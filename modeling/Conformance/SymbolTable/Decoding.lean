import Conformance.DataView
import Conformance.Decimal
import Conformance.SymbolTable

namespace Conformance.SymbolTable

open DataView

variable {α : Type} [DataView α]

/-- A line number has 32 bits. -/
def lineNumber? (v : α) : Option Nat := (nat? v).filter (· < Decimal.ofBits 32)

def InterfaceMethod.decode (v : α) : Option InterfaceMethod := do
  match ← textOrFields? ["signature", "line"] v with
  | .inl s => return .plain s
  | .inr fields =>
    let signature ← required Datum.text? fields "signature"
    return .located signature (← required lineNumber? fields "line")

def InterfaceEntry.decode (v : α) : Option InterfaceEntry := do
  let fields ← fields? ["name", "file", "line", "type_params", "embeds", "methods"] v
  return {
    name := ← defaulted (optional text?) none fields "name"
    file := ← defaulted (optional text?) none fields "file"
    line := ← defaulted (optional lineNumber?) none fields "line"
    typeParams := ← defaulted (list text?) [] fields "type_params"
    embeds := ← defaulted (list text?) [] fields "embeds"
    methods := ← defaulted (list InterfaceMethod.decode) [] fields "methods" }

def TypeEntry.decode (v : α) : Option TypeEntry := do
  let fields ← fields? ["name", "file", "line", "methods", "pointer_methods"] v
  return {
    name := ← required text? fields "name"
    file := ← defaulted (optional text?) none fields "file"
    line := ← defaulted (optional lineNumber?) none fields "line"
    methods := ← defaulted (list text?) [] fields "methods"
    pointerMethods := ← defaulted (list text?) [] fields "pointer_methods" }

def MethodEntry.decode (v : α) : Option MethodEntry := do
  let fields ← fields? ["receiver", "signature", "file", "line"] v
  return {
    receiver := ← required text? fields "receiver"
    signature := ← required text? fields "signature"
    file := ← defaulted (optional text?) none fields "file"
    line := ← defaulted (optional lineNumber?) none fields "line" }

def decode (v : α) : Option SymbolTable := do
  let fields ← fields? ["externs", "interface", "type", "method"] v
  return {
    externals := ← defaulted (list text?) [] fields "externs"
    interfaces := ← defaulted (list InterfaceEntry.decode) [] fields "interface"
    types := ← defaulted (list TypeEntry.decode) [] fields "type"
    methods := ← defaulted (list MethodEntry.decode) [] fields "method" }

end Conformance.SymbolTable
