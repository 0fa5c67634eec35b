import Conformance.Yaml.Schema
import Conformance.Yaml.Token.Scan

namespace Conformance.Yaml

/-- The node of a text with at most one document. -/
def parse (text : String) : Option Node := do
  let ts ← Token.ofText? text
  let tree ← Tree.ofTokens? ts
  Node.ofTree? tree

end Conformance.Yaml
