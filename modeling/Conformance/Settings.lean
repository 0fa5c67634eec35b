import Conformance.DataView
import Conformance.Lens
import Conformance.Path
import Conformance.Toml

namespace Conformance

/-- How the work is spread; answers do not depend on it. -/
structure Settings.Parallel where
  enabled : Bool := true
  /-- The number of workers; without it there is one for each processor. -/
  maxConcurrency : Option Nat := none
  /-- The number of interfaces from which on the work is spread. -/
  minInterfaces : Nat := 32
  deriving DecidableEq, Repr

structure Settings where
  parallel : Settings.Parallel := {}
  receiverPolicy : ReceiverPolicy := .union
  lens : Lens.Switches := {}
  deriving DecidableEq, Repr

namespace Settings

open DataView

def Parallel.decode (v : Datum) : Option Parallel := do
  let fields ← v.fields? ["enabled", "max_concurrency", "min_interfaces"]
  let d : Parallel := {}
  return {
    enabled := ← defaulted Datum.bool? d.enabled fields "enabled"
    maxConcurrency := ← defaulted (optional Datum.nat?) d.maxConcurrency fields "max_concurrency"
    minInterfaces := ← defaulted Datum.nat? d.minInterfaces fields "min_interfaces" }

/-- The name of a policy, which may stand as the only key of a table, for something empty. -/
def decodePolicy : Datum → Option ReceiverPolicy
  | .text name | .table [(name, .list [])] | .table [(name, .table [])] =>
    ReceiverPolicy.ofText? name
  | _ => none

def decodeMatching (v : Datum) : Option ReceiverPolicy := do
  let fields ← v.fields? ["receiver_policy"]
  defaulted decodePolicy .union fields "receiver_policy"

def decodeLens (v : Datum) : Option Lens.Switches := do
  let fields ← v.fields?
    ["enable", "show_on_interfaces", "show_on_methods", "show_on_types", "per_method_attribution"]
  let switch := defaulted Datum.bool? true fields
  return {
    enable := ← switch "enable"
    showOnInterfaces := ← switch "show_on_interfaces"
    showOnMethods := ← switch "show_on_methods"
    showOnTypes := ← switch "show_on_types"
    perMethodAttribution := ← switch "per_method_attribution" }

def decode (v : Datum) : Option Settings := do
  let fields ← v.fields? ["parallel", "matching", "lens"]
  return {
    parallel := ← defaulted Parallel.decode {} fields "parallel"
    receiverPolicy := ← defaulted decodeMatching .union fields "matching"
    lens := ← defaulted decodeLens {} fields "lens" }

def parse? (text : String) : Option Settings := (Toml.parse text).bind decode

inductive LoadError where
  | unreadable (path : String)
  | malformed (path : String)
  deriving DecidableEq, Repr

def LoadError.code : LoadError → String
  | unreadable _ => "E001"
  | malformed _ => "E020"

def fileName : String := ".implens.toml"

def searchLimit : Nat := 10

/-- The files that may give the settings for a directory: its own and those of the directories
above. -/
def candidates (start : String) : List String :=
  (Path.ancestors start searchLimit).map (Path.child · fileName)

section

variable (decode : String → Option Settings) (read : String → Option String)

/-- The settings of a file that has to be there. -/
def loadWith (path : String) : Except LoadError Settings :=
  match read path with
  | none => .error (.unreadable path)
  | some text =>
    match decode text with
    | none => .error (.malformed path)
    | some s => .ok s

/-- The settings of the nearest file that gives some, or those for no file at all. -/
def nearestWith (start : String) : Settings :=
  ((candidates start).findSome? fun path ↦ (read path).bind decode).getD {}

end

def load : (String → Option String) → String → Except LoadError Settings := loadWith parse?

def nearest : (String → Option String) → String → Settings := nearestWith parse?

end Settings

end Conformance
