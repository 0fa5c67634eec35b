import Conformance.Report.Markdown
import Conformance.Report.Record
import Conformance.Report.Terminal

namespace Conformance.Report

/-- The text of a report; only the terminal format has colours. -/
def written (r : Report) (format : Format) (color : Bool) : String :=
  match format with
  | .json => r.json
  | .markdown => r.markdown
  | .terminal => r.terminal color

end Conformance.Report
