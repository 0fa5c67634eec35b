import Conformance.Json
import Conformance.Path
import Conformance.SymbolTable.Decoding
import Conformance.Toml
import Conformance.Yaml

namespace Conformance.SymbolTable

inductive Format where
  | json
  | toml
  | yaml
  deriving DecidableEq, Repr

namespace Format

def ofExtension? : String → Option Format
  | "json" => some .json
  | "toml" => some .toml
  | "yaml" | "yml" => some .yaml
  | _ => none

def ofPath? (path : String) : Option Format := (Path.extension? path).bind ofExtension?

def parse? (format : Format) (text : String) : Option SymbolTable :=
  match format with
  | .json => (Json.parse text).bind decode
  | .toml => (Toml.parse text).bind decode
  | .yaml => (Yaml.parse text).bind decode

/-- The decoder of a format; of its errors only the format is known. -/
def decoder (format : Format) (text : String) : Except Format SymbolTable :=
  match format.parse? text with
  | some t => .ok t
  | none => .error format

end Format

end Conformance.SymbolTable
