import Conformance.Command
import Conformance.Program.Spreading
import Conformance.Report.Written
import Conformance.Settings
import Conformance.SymbolTable.Loading

namespace Conformance

inductive Failure where
  | settings (path : String) (cause : Settings.LoadError)
  | loading (cause : LoadError)
  | matching (cause : Problem)
  | uncreatable (path : String)
  deriving DecidableEq, Repr

namespace Failure

def message : Failure → String
  | settings path _ => "loading config " ++ path
  | loading _ => "loading symbol tables"
  | matching cause => "matching failed [" ++ cause.code ++ "]"
  | uncreatable path => "failed to create " ++ path

end Failure

structure Analysis.Findings where
  settings : Settings
  edges : EdgeSet
  report : Report

namespace Analysis

variable (read : String → Option String)

def override (o : Analysis) (s : Settings) : Settings where
  parallel :=
    { s.parallel with
      enabled := s.parallel.enabled && !o.noParallel
      maxConcurrency := match o.jobs with
        | some n => if n = 0 then none else some n
        | none => s.parallel.maxConcurrency }
  receiverPolicy := o.receiverPolicy.getD s.receiverPolicy
  lens := s.lens

def settings (o : Analysis) (here : String) : Except Failure Settings :=
  match o.config with
  | none => .ok (o.override (Settings.nearest read here))
  | some path => ((Settings.load read path).mapError (.settings path)).map o.override

def findings (o : Analysis) (here : String) (tables : List String) : Except Failure Findings := do
  let settings ← o.settings read here
  let program ← (Program.load read tables).mapError .loading
  let edges ←
    (program.spreadEdges .flatten settings.parallel settings.receiverPolicy).mapError .matching
  return { settings, edges, report := edges.report settings.lens }

def Findings.text (f : Findings) (o : Analysis) (color : Bool) : String :=
  f.report.written o.format color

end Analysis

end Conformance
